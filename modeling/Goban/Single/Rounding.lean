import Goban.Single

/-!
# Rounding fractions to single precision

`nearest` gives the single precision number next to a fraction of two natural numbers; of two that
are equally near, the one with the even significand. It computes with natural numbers only.
-/

namespace Goban.Single

/-- A quotient rounded to the nearest natural number, and from the middle to the even one. -/
def roundDiv (num den : Nat) : Nat :=
  let q := num / den
  let twice := 2 * (num % den)
  if twice < den ∨ (twice = den ∧ q % 2 = 0) then q else q + 1

/-- The fraction `num / den` over `2 ^ e`, as a fraction. -/
def scaled (num den : Nat) (e : Int) : Nat × Nat :=
  if 0 ≤ e then (num, den * Nat.pow 2 e.toNat) else (num * Nat.pow 2 (-e).toNat, den)

/-- The exponent of the last bit of a fraction rounded to 24 bits, at least that of the least
positive number. -/
def lastBit (num den : Nat) : Int :=
  let k := (num.log2 : Int) - den.log2
  let (n, d) := scaled num den k
  Max.max (if d ≤ n then k - 23 else k - 24) (-149)

/-- The number of the given sign nearest to `num / den`. -/
def nearest (negative : Bool) (num den : Nat) : Single :=
  let size :=
    if num = 0 then 0
    else
      let e := lastBit num den
      let (n, d) := scaled num den e
      Min.min ((e + 149).toNat * Nat.pow 2 23 + roundDiv n d) 0x7f800000
  ⟨(if negative then 0x80000000 else 0) + UInt32.ofNat size⟩

end Goban.Single
