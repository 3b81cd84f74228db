/-!
# The two players

Black moves first and is the side that positive scores favour.
-/

namespace Goban

/-- The color of a stone and of the player who owns it. -/
inductive Color where
  | black
  | white
deriving DecidableEq, Repr, Inhabited

namespace Color

/-- The opponent's color. -/
def other : Color → Color
  | black => white
  | white => black

/-- The letter that names the color in game records. -/
def letter : Color → String
  | black => "B"
  | white => "W"

/-- The full name of the color. -/
def name : Color → String
  | black => "Black"
  | white => "White"

@[simp] theorem other_other (c : Color) : c.other.other = c := by cases c <;> rfl

@[simp] theorem other_ne (c : Color) : c.other ≠ c := by cases c <;> decide

@[simp] theorem ne_other (c : Color) : c ≠ c.other := by cases c <;> decide

theorem eq_other_of_ne {c d : Color} (h : c ≠ d) : c = d.other := by
  cases c <;> cases d <;> first | rfl | exact absurd rfl h

end Color

end Goban
