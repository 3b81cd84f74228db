/-!
# Decimal digits

Natural numbers as texts of the digits `0` to `9`, with any number of leading zeros. A number may be
of any size, or has to fit in a machine word.
-/

namespace Goban.Text

/-- The value of a digit. -/
def digitValue (c : Char) : Nat := c.toNat - '0'.toNat

/-- The number that a text of digits is written for; none if the text is empty or has a character
that is no digit. -/
def natOfDigits? (s : List Char) : Option Nat :=
  if s.isEmpty then none
  else if s.all Char.isDigit then some (s.foldl (fun n c => 10 * n + digitValue c) 0)
  else none

/-- A number with one more digit behind it, if it stays below a bound. -/
def pushDigit? (bound n : Nat) (c : Char) : Option Nat :=
  let next := 10 * n + digitValue c
  if next < bound then some next else none

/-- The number that a text of digits is written for, if it fits in a word of 64 bits. -/
def wordOfDigits? (s : List Char) : Option Nat :=
  if s.isEmpty then none
  else if s.all Char.isDigit then s.foldlM (pushDigit? (Nat.pow 2 64)) 0
  else none

end Goban.Text
