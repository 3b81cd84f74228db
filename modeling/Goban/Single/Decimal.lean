import Goban.Single.Rounding

/-!
# Single precision numbers in decimal text

Two ways to write a number. `shortest` writes the fewest digits that are read back as the same
number, and of those the nearest to it, or of two equally near the one farther from zero, never with
an exponent. `fixed` writes a given number of places after the point, rounding the exact value and
from the middle to the even digit.
-/

namespace Goban.Single

/-- The digits of a number without those of its last `places` places, and these places. -/
def pointAt (places : Nat) (n : Nat) : String :=
  let digits := toString n
  let padded := String.ofList (List.replicate (places + 1 - digits.length) '0') ++ digits
  let whole := padded.length - places
  if places = 0 then padded
  else String.ofList (padded.toList.take whole) ++ "." ++ String.ofList (padded.toList.drop whole)

/-- The sign of a number in text. -/
def signText (x : Single) : String := if x.isNegative then "-" else ""

/-- The text of a number that is not finite, if it is one; a NaN has no sign. -/
def specialText? (x : Single) : Option String :=
  if x.isNaN then some "NaN"
  else if x.isFinite then none
  else some (x.signText ++ "inf")

/-- The number with so many places after the point. -/
def fixed (places : Nat) (x : Single) : String :=
  match x.specialText? with
  | some s => s
  | none =>
    let (m, q) := x.magnitude
    let (n, d) := scaled (m * Nat.pow 10 places) 1 (-q)
    x.signText ++ pointAt places (roundDiv n d)

/-! ## The fewest digits -/

/-- The fractions that are read as a given positive number: those between `low / den` and
`high / den`, with the two ends if the significand of the number is even. -/
structure Interval where
  low : Nat
  high : Nat
  den : Nat
  closed : Bool

/-- The size `m * 2 ^ q` of a number, as a fraction with the denominator of its interval, and the
interval. Below a power of two the numbers lie twice as close as above it. -/
def readBack (m : Nat) (q : Int) : Nat × Interval :=
  let gap := if m = Nat.pow 2 23 ∧ -149 < q then 1 else 2
  let (n, d) := if 0 ≤ q then (Nat.pow 2 q.toNat, 4) else (1, 4 * Nat.pow 2 (-q).toNat)
  (4 * m * n, { low := (4 * m - gap) * n, high := (4 * m + 2) * n, den := d, closed := m % 2 = 0 })

/-- Whether the fraction `c * 10 ^ k` is in the interval. -/
def Interval.has (i : Interval) (c : Nat) (k : Int) : Bool :=
  let (left, right) :=
    if 0 ≤ k then (c * Nat.pow 10 k.toNat * i.den, 1) else (c * i.den, Nat.pow 10 (-k).toNat)
  if i.closed then i.low * right ≤ left && left ≤ i.high * right
  else i.low * right < left && left < i.high * right

/-- A multiple of `10 ^ k` in the interval, if there is one: the nearest to `num / den`, and of two
equally near the greater. -/
def onGrid? (num : Nat) (i : Interval) (k : Int) : Option Nat :=
  let (n, d) :=
    if 0 ≤ k then (num, i.den * Nat.pow 10 k.toNat) else (num * Nat.pow 10 (-k).toNat, i.den)
  let below := n / d
  match i.has below k, i.has (below + 1) k with
  | true, true => some (if 2 * (n % d) < d then below else below + 1)
  | true, false => some below
  | false, true => some (below + 1)
  | false, false => none

/-- The first grid, from `10 ^ k` downwards, with a point in the interval, and this point. -/
def coarsest (num : Nat) (i : Interval) (k : Int) : Nat → Nat × Int
  | 0 => (0, k)
  | fuel + 1 =>
    match onGrid? num i k with
    | some c => (c, k)
    | none => coarsest num i (k - 1) fuel

/-- The number in as few digits as read back, and without an exponent. -/
def shortest (x : Single) : String :=
  match x.specialText? with
  | some s => s
  | none =>
    let (m, q) := x.magnitude
    if m = 0 then x.signText ++ "0"
    else
      let (num, i) := readBack m q
      let (c, k) := coarsest num i 39 100
      x.signText ++ if 0 ≤ k then toString (c * Nat.pow 10 k.toNat) else pointAt (-k).toNat c

end Goban.Single
