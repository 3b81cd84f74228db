import Goban.Search.Selection

/-!
# Expansion

A leaf whose evaluation is known is expanded: it gets a branch for each legal move, whose prior is
the share of its weight in the policy. Weights that are negative, infinite or NaN count as zero; if
no weight is left, all moves get the same prior. The branches are walked from the last legal move to
the first.
-/

namespace Goban

/-- The weight that a policy gives to a move, zero if it is no proper weight. -/
def policyWeight (policy : Array Single) (m : Move) : Single :=
  let p := policy.getD m.index .zero
  if p.isFinite then p.max .zero else .zero

/-- The priors of some moves, which add up to one but for rounding. -/
def priors (policy : List Single) (moves : List Move) : List Single :=
  let policy := policy.toArray
  let weights := moves.map (policyWeight policy)
  let total := Single.sum weights
  if .zero < total then weights.map (· / total)
  else List.replicate moves.length (.one / .ofNat moves.length)

namespace Tree

/-- The branches of a position, in the order in which they are walked. -/
def freshBranches (policy : List Single) (position : Position) : List (Move × Tree) :=
  let moves := position.legalMoves
  (List.zipWith (fun m prior => (m, node (.unvisited prior) [])) moves
    (priors policy moves)).reverse

/-- Gives the top of a tree its branches, unless it has them. -/
def expand (policy : List Single) (position : Position) : Tree → Tree
  | node n bs =>
    if n.expanded then node n bs
    else node { n with expanded := true } (freshBranches policy position)

/-- What a finished position is worth to black: one for a win, minus one for a loss, and zero for
a draw. -/
def finalOutcome (position : Position) : Single :=
  let score := position.score
  if .zero < score then .one else if score < .zero then .minusOne else .zero

/-- Selects leaves one after the other, up to the given number. A finished position is visited at
once; any other gets a virtual loss, so that the next selection avoids it, and is added to the
leaves. The selection ends early when it comes to the same leaf again. -/
def gather (o : PlayerOptions) : Nat → Tree → List Leaf → Except Fault (List Leaf × Tree)
  | 0, t, leaves => .ok (leaves, t)
  | count + 1, t, leaves => do
    let (leaf, t) ← t.selectLeaf o
    if leaf.position.isOver then
      gather o count (t.along (.visit (finalOutcome leaf.position)) leaf.path) leaves
    else if leaves.any fun l => l.path == leaf.path then .ok (leaves, t)
    else gather o count (t.along .addLoss leaf.path) (leaves ++ [leaf])

/-- Takes in the evaluation of a leaf: the virtual losses on its path are taken back, the leaf is
expanded, and its value is a visit to every node on the path. -/
def absorb (leaf : Leaf) (e : Evaluation) (t : Tree) : Except Fault Tree :=
  if (t.nodesOn leaf.path).any (·.virtualLosses = 0) then .error .virtualLossBalance
  else
    let t := t.along .takeLoss leaf.path
    match t.at? leaf.path with
    | none => .error .unvisitedNode
    | some below =>
      if !below.top.expanded && e.policy.length != policySize then .error .policyLength
      else
        let t := t.modifyAt (expand e.policy leaf.position) leaf.path
        .ok (t.along (.visit (e.value * leaf.position.toPlay.sign)) leaf.path)

end Tree

end Goban
