import Goban.Single.Rounding
import Goban.Text.Digits

/-!
# Reading single precision numbers

A number is written as digits with an optional point among, before or behind them and an optional
exponent after `e` or `E`; or as one of the words `inf`, `infinity` and `nan` in either case. A sign
may stand in front. What is read is the number nearest to the written value.
-/

namespace Goban.Single

/-- The digits at the start of a text, and the rest. -/
def spanDigits (s : List Char) : List Char × List Char :=
  (s.takeWhile Char.isDigit, s.dropWhile Char.isDigit)

/-- A sign at the start of a text, true for minus, and the rest. -/
def splitSign : List Char → Bool × List Char
  | '-' :: rest => (true, rest)
  | '+' :: rest => (false, rest)
  | s => (false, s)

/-- The number nearest to the value of `digits * 10 ^ exponent`. Beyond the range of the numbers the
size of the exponent does not matter. -/
def ofScaled (negative : Bool) (digits : List Char) (exponent : Int) : Single :=
  let significant := digits.dropWhile (· == '0')
  let n := (Text.natOfDigits? significant).getD 0
  let order := (significant.length : Int) + exponent
  if n = 0 ∨ order < -60 then nearest negative 0 1
  else if 60 < order then nearest negative (Nat.pow 2 200) 1
  else if 0 ≤ exponent then nearest negative (n * Nat.pow 10 exponent.toNat) 1
  else nearest negative n (Nat.pow 10 (-exponent).toNat)

/-- The exponent at the end of a number; none if something else stands there. -/
def exponent? : List Char → Option Int
  | [] => some 0
  | e :: rest =>
    if e = 'e' ∨ e = 'E' then
      let (negative, digits) := splitSign rest
      (Text.natOfDigits? digits).map fun n => if negative then -(n : Int) else n
    else none

/-- The number written by digits, with a point and an exponent or without. -/
def ofNumeral? (negative : Bool) (s : List Char) : Option Single :=
  let (whole, rest) := spanDigits s
  let (fraction, rest) := match rest with
    | '.' :: rest => spanDigits rest
    | rest => ([], rest)
  if whole.isEmpty && fraction.isEmpty then none
  else (exponent? rest).map fun e =>
    ofScaled negative (whole ++ fraction) (e - (fraction.length : Int))

/-- The number that a text is written for. -/
def ofText? (s : String) : Option Single :=
  let (negative, body) := splitSign s.toList
  let signed (x : Single) : Single := if negative then -x else x
  let word := body.map Char.toLower
  if word = "inf".toList ∨ word = "infinity".toList then some (signed infinity)
  else if word = "nan".toList then some (signed nan)
  else ofNumeral? negative body

end Goban.Single
