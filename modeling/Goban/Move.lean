import Goban.Fault
import Goban.Point

/-!
# Moves

A move puts a stone on a point, passes, or resigns. Moves are numbered: the points first, then pass,
then resignation. The policy of a model has one entry for each number but the last.
-/

namespace Goban

/-- What a player does in one turn. -/
inductive Move where
  | stone (p : Point)
  | pass
  | resign
deriving DecidableEq, Repr, Inhabited

/-- The number of moves that a position can have: a stone on each point, and pass. -/
abbrev policySize : Nat := pointCount + 1

namespace Move

/-- The number of a move; pass comes after the points and resignation after pass. -/
def index : Move → Nat
  | stone p => p.val
  | pass => pointCount
  | resign => pointCount + 1

/-- The move with a number. -/
def ofIndex (i : Nat) : Except Fault Move :=
  if h : i < pointCount then .ok (stone ⟨i, h⟩)
  else if i = pointCount then .ok pass
  else if i = pointCount + 1 then .ok resign
  else .error (.moveIndex i)

/-- The move that puts a stone in a row and a column. -/
def ofRowColumn (row column : Nat) : Except Fault Move :=
  if h : row < side ∧ column < side then .ok (stone (Point.ofRowColumn row column h.1 h.2))
  else .error (.offBoard row column)

@[simp] theorem ofIndex_index (m : Move) : ofIndex m.index = .ok m := by
  cases m <;> simp [index, ofIndex]

end Move

end Goban
