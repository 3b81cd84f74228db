import Goban.Position

/-!
# Feature planes

A network sees a position as a stack of planes with an entry for each point. For the present board
and each remembered one, the latest first, there is a plane of the stones of the side to play and a
plane of the opponent's; a last plane is full when black is to play.
-/

namespace Goban.Features

/-- The number of planes of a position. -/
abbrev planeCount : Nat := 2 * (historyLength + 1) + 1

/-- The points marked on a plane of a position. -/
def plane (pos : Position) (k : Fin planeCount) : PointSet :=
  .ofPred fun p =>
    if k.val + 1 = planeCount then pos.toPlay == .black
    else
      let color := if k.val % 2 = 0 then pos.toPlay else pos.toPlay.other
      match pos.boardAt? (k.val / 2) with
      | some board => board[p] == some color
      | none => false

/-- All planes of a position. -/
def planes (pos : Position) : List PointSet := (List.finRange planeCount).map (plane pos)

/-- The input of a network for a batch: the planes of each position. -/
def ofBatch (positions : List Position) : List (List PointSet) := positions.map planes

end Goban.Features
