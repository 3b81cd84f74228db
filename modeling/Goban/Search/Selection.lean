import Goban.Search.Options
import Goban.Search.Tree

/-!
# Selection

From the top of a tree the search goes down to a leaf, a node that was not expanded or whose game is
over, and at each node takes the branch with the greatest merit: the mean outcome for the side to
play, where visits under way count as lost, plus a bonus for a good prior and few visits. Of several
branches with the greatest merit it takes the one that it walks last.
-/

namespace Goban

/-- The place of the greatest of several keys, the last of them if there are several. The place and
the key of the greatest so far are given. -/
def lastGreatestFrom (order : κ → κ → Ordering) : List κ → Nat → Nat × κ → Nat
  | [], _, best => best.1
  | k :: rest, place, best =>
    lastGreatestFrom order rest (place + 1) (if order best.2 k = .gt then best else (place, k))

/-- The place of the greatest key of a list, the last of them if there are several. -/
def lastGreatest (order : κ → κ → Ordering) : List κ → Option Nat
  | [] => none
  | k :: rest => some (lastGreatestFrom order rest 1 (0, k))

namespace Node

/-- What a branch promises the side to play, apart from the bonus. -/
def promise (o : PlayerOptions) (sign : Single) (parent child : Node) : Single :=
  let tries := child.visits + child.virtualLosses
  if tries = 0 then (parent.mean * sign - o.untriedPenalty).clamp .minusOne .one
  else (child.total * sign - .ofNat child.virtualLosses) / .ofNat tries

/-- The bonus of a branch. -/
def bonus (o : PlayerOptions) (parent child : Node) : Single :=
  let tries := child.visits + child.virtualLosses
  let parentTries := max (parent.visits + parent.virtualLosses) 1
  o.exploration * child.prior * ((Single.ofNat parentTries).sqrt / .ofNat (1 + tries))

/-- The merit of a branch for the side with the given sign. -/
def merit (o : PlayerOptions) (sign : Single) (parent child : Node) : Single :=
  promise o sign parent child + bonus o parent child

end Node

namespace Tree

/-- The position of a branch, worked out from the position above it unless it is known. -/
def positionBelow (above : Position) (m : Move) (t : Tree) : Except Fault Position :=
  match t.top.position with
  | some position => .ok position
  | none =>
    match above.play m with
    | .ok position => .ok position
    | .error e => .error (.illegalSearchMove e.message)

/-- A leaf of a tree: its path and its position. -/
structure Leaf where
  path : Path
  position : Position
deriving DecidableEq

mutual

/-- Goes down from the top, whose position is given, to the leaf of the greatest merit. The tree
comes back with the positions on the way. -/
def select (o : PlayerOptions) (position : Position) : Tree → Except Fault (Leaf × Tree)
  | node n bs =>
    let n := { n with position := some position }
    if !n.expanded || position.isOver then .ok (⟨[], position⟩, node n bs)
    else
      let sign := position.toPlay.sign
      match lastGreatest Single.totalOrder (bs.map fun b => Node.merit o sign n b.2.top) with
      | none => .error .noSearchMove
      | some place => do
        let (leaf, bs) ← selectAt o position bs place
        .ok ({ leaf with path := place :: leaf.path }, node n bs)

/-- Goes down through the branch at a place. -/
def selectAt (o : PlayerOptions) (position : Position) :
    List (Move × Tree) → Nat → Except Fault (Leaf × List (Move × Tree))
  | [], _ => .error .noSearchMove
  | (m, t) :: rest, 0 => do
    let below ← positionBelow position m t
    let (leaf, t) ← select o below t
    .ok (leaf, (m, t) :: rest)
  | b :: rest, place + 1 => do
    let (leaf, rest) ← selectAt o position rest place
    .ok (leaf, b :: rest)

end

/-- Goes down from the top to the leaf of the greatest merit. -/
def selectLeaf (o : PlayerOptions) (t : Tree) : Except Fault (Leaf × Tree) :=
  match t.top.position with
  | some position => select o position t
  | none => .error .unvisitedNode

end Tree

end Goban
