import Goban.Search.Tree

/-!
# Copying a tree

Before the tree below a branch takes the place of the tree that it was in, it is copied into a graph
of its own, where nodes are numbered in the order in which they come. A node whose branches were not
copied yet waits on a stack. When it leaves the stack its branches are copied in the order in which
they are walked, and the nodes below them go on the stack. The branch that a graph has got last is
walked first, so the branches of every node come out in the opposite order.
-/

namespace Goban

/-- A graph of numbered nodes, each with its branches in the order in which they are walked: the
moves, and the numbers of the nodes below. -/
structure Graph where
  nodes : Array (Node × List (Move × Nat))

namespace Tree

mutual

/-- The number of nodes of a tree. -/
def size : Tree → Nat
  | node _ bs => 1 + sizeAll bs

/-- The number of nodes of the trees of some branches. -/
def sizeAll : List (Move × Tree) → Nat
  | [] => 0
  | (_, t) :: rest => size t + sizeAll rest

end

theorem size_eq (t : Tree) : t.size = 1 + sizeAll t.branches := by
  obtain ⟨n, bs⟩ := t
  rw [size, branches]

end Tree

namespace Graph

/-- The graph without nodes. -/
def empty : Graph := ⟨#[]⟩

/-- The number of nodes, which the next node gets. -/
def size (g : Graph) : Nat := g.nodes.size

/-- The graph with one more node, which has no branches. -/
def addNode (n : Node) (g : Graph) : Graph := ⟨g.nodes.push (n, [])⟩

/-- The graph with one more branch between two nodes. -/
def addBranch (above : Nat) (m : Move) (below : Nat) (g : Graph) : Graph :=
  ⟨g.nodes.modify above fun (n, bs) => (n, (m, below) :: bs)⟩

/-- Copies branches to a node. The nodes below them wait on top of those that wait already. -/
def copyBranches (above : Nat) : List (Move × Tree) → Graph → List (Tree × Nat) →
    Graph × List (Tree × Nat)
  | [], g, waiting => (g, waiting)
  | (m, t) :: bs, g, waiting =>
    copyBranches above bs ((g.addNode t.top).addBranch above m g.size) ((t, g.size) :: waiting)

/-- The number of nodes of the trees that wait. -/
def sizeWaiting : List (Tree × Nat) → Nat
  | [] => 0
  | (t, _) :: rest => t.size + sizeWaiting rest

theorem sizeWaiting_copyBranches (above : Nat) (bs : List (Move × Tree)) (g : Graph)
    (waiting : List (Tree × Nat)) :
    sizeWaiting (copyBranches above bs g waiting).2 = Tree.sizeAll bs + sizeWaiting waiting := by
  induction bs generalizing g waiting with
  | nil => rw [copyBranches, Tree.sizeAll, Nat.zero_add]
  | cons b bs ih =>
    obtain ⟨m, t⟩ := b
    rw [copyBranches, ih, sizeWaiting, Tree.sizeAll]
    omega

/-- Copies the branches of the nodes that wait until none waits. Each step takes one node from the
trees that wait. -/
def copyWaiting (g : Graph) : List (Tree × Nat) → Graph
  | [] => g
  | (t, above) :: waiting =>
    copyWaiting (copyBranches above t.branches g waiting).1
      (copyBranches above t.branches g waiting).2
termination_by waiting => sizeWaiting waiting
decreasing_by
  rw [sizeWaiting_copyBranches, sizeWaiting, t.size_eq]
  omega

/-- The copy of a tree. -/
def ofTree (t : Tree) : Graph := copyWaiting (empty.addNode t.top) [(t, 0)]

/-- The tree below a node, to a depth. -/
def treeAt (g : Graph) : (depth : Nat) → Nat → Tree
  | 0, _ => default
  | depth + 1, i =>
    match g.nodes[i]? with
    | some (n, bs) => .node n (bs.map fun (m, j) => (m, treeAt g depth j))
    | none => default

end Graph

/-- The tree as it comes out of its copy. -/
def Tree.transplant (t : Tree) : Tree := (Graph.ofTree t).treeAt (Graph.ofTree t).size 0

end Goban
