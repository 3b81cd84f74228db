import Goban.Model

/-!
# Search trees

A search tree hangs below the position to move from. Each node counts its visits and adds up their
outcomes from black's view. A node that was expanded has a branch for each legal move; the branches
stand in the order in which the search walks them. The position of a node is worked out when the
search first comes to it.

A node is found by its path, the places of the branches that lead to it.
-/

namespace Goban

/-- What the search knows about a node. -/
structure Node where
  /-- Known since the first visit. -/
  position : Option Position
  /-- The share of the model's policy, between zero and one. -/
  prior : Single
  visits : Nat
  /-- The sum of the outcomes of all visits, from black's view. -/
  total : Single
  /-- Visits under way, which count as lost until their outcome is known. -/
  virtualLosses : Nat
  expanded : Bool
deriving DecidableEq

namespace Node

/-- A node that the search has not come to. -/
def unvisited (prior : Single) : Node := ⟨none, prior, 0, .zero, 0, false⟩

/-- The node of a position to move from. -/
def root (position : Position) : Node := { unvisited .one with position := some position }

/-- The mean outcome for black; zero before the first visit. -/
def mean (n : Node) : Single := if n.visits = 0 then .zero else n.total / .ofNat n.visits

/-- The node with one more visit. -/
def visit (outcome : Single) (n : Node) : Node :=
  { n with visits := n.visits + 1, total := n.total + outcome }

/-- The node with one more virtual loss. -/
def addLoss (n : Node) : Node := { n with virtualLosses := n.virtualLosses + 1 }

/-- The node with one virtual loss fewer. -/
def takeLoss (n : Node) : Node := { n with virtualLosses := n.virtualLosses - 1 }

end Node

/-- A search tree: a node, and the branches below it with their moves. -/
inductive Tree where
  | node (top : Node) (branches : List (Move × Tree))

/-- The places of the branches on the way to a node. -/
abbrev Path := List Nat

namespace Tree

/-- The node at the top. -/
def top : Tree → Node
  | node n _ => n

/-- The trees below the top, with the moves that lead to them. -/
def branches : Tree → List (Move × Tree)
  | node _ bs => bs

/-- The tree of a position to move from. -/
def root (position : Position) : Tree := node (.root position) []

instance : Inhabited Tree := ⟨node (.unvisited .zero) []⟩

/-- The tree whose top has a known position. -/
def know (position : Position) : Tree → Tree
  | node n bs => node { n with position := some position } bs

theorem top_know (position : Position) (t : Tree) :
    (t.know position).top = { t.top with position := some position } := by
  obtain ⟨n, bs⟩ := t
  rfl

theorem branches_know (position : Position) (t : Tree) :
    (t.know position).branches = t.branches := by
  obtain ⟨n, bs⟩ := t
  rfl

/-- The tree at a path, if there is one. -/
def at? : Path → Tree → Option Tree
  | [], t => some t
  | i :: path, node _ bs =>
    match bs[i]? with
    | some (_, t) => at? path t
    | none => none

/-- The nodes on a path, from the top to its end. -/
def nodesOn : Path → Tree → List Node
  | [], node n _ => [n]
  | i :: path, node n bs =>
    match bs[i]? with
    | some (_, t) => n :: nodesOn path t
    | none => [n]

/-- Changes every node on a path. -/
def along (f : Node → Node) : Path → Tree → Tree
  | [], node n bs => node (f n) bs
  | i :: path, node n bs => node (f n) (bs.modify i fun (m, t) => (m, along f path t))

/-- Changes the tree at the end of a path. -/
def modifyAt (f : Tree → Tree) : Path → Tree → Tree
  | [], t => f t
  | i :: path, node n bs => node n (bs.modify i fun (m, t) => (m, modifyAt f path t))

/-- Gives new priors to the trees of some branches, in their order. -/
def mapPriors (f : Single → Single → Single) : List (Move × Tree) → List Single →
    List (Move × Tree)
  | (m, node n bs) :: rest, x :: xs => (m, node { n with prior := f n.prior x } bs) ::
      mapPriors f rest xs
  | bs, _ => bs

end Tree

end Goban
