import Goban.Color

/-!
# Single precision numbers

Scores, priors and values are IEEE 754 binary32 numbers. `Single` keeps one as its bit pattern, so
that numbers can be compared bit by bit and put in a total order, in which the two zeros differ and
every NaN has its place; the search breaks ties by that order.

An operation hands on a NaN it is given, the first of two, with its sign. A NaN that an operation
makes itself, as of infinity minus infinity, is negative.
-/

namespace Goban

/-- A binary32 number, kept as its bit pattern. -/
structure Single where
  bits : UInt32
deriving DecidableEq, Repr, Inhabited

namespace Single

/-- The number as the machine computes with it. -/
@[inline] def native (x : Single) : Float32 := Float32.ofBits x.bits

/-- Whether a number is a NaN. -/
@[inline] def isNaN (x : Single) : Bool := 0x7f800000 < (x.bits &&& 0x7fffffff)

/-- Whether a number is neither infinite nor a NaN. -/
@[inline] def isFinite (x : Single) : Bool := (x.bits &&& 0x7fffffff) < 0x7f800000

/-- Whether the sign bit is set. -/
@[inline] def isNegative (x : Single) : Bool := x.bits &&& 0x80000000 != 0

def zero : Single := ⟨0⟩
def one : Single := ⟨0x3f800000⟩
def minusOne : Single := ⟨0xbf800000⟩

/-- The NaN that a number read as such has. -/
def nan : Single := ⟨0x7fc00000⟩

/-- The NaN that an operation on numbers makes. -/
def invalid : Single := ⟨0xffc00000⟩

def infinity : Single := ⟨0x7f800000⟩

/-- The least finite number. -/
def least : Single := ⟨0xff7fffff⟩

/-- A NaN as operations hand it on. -/
@[inline] def quiet (x : Single) : Single := ⟨x.bits ||| 0x400000⟩

@[inline] def ofNative (r : Float32) : Single := if r.isNaN then invalid else ⟨r.toBits⟩

/-- An operation on two numbers, from the machine's operation on numbers that are no NaN. -/
@[inline] def lift (f : Float32 → Float32 → Float32) (x y : Single) : Single :=
  if x.isNaN then x.quiet else if y.isNaN then y.quiet else ofNative (f x.native y.native)

instance : Add Single := ⟨lift Float32.add⟩
instance : Sub Single := ⟨lift Float32.sub⟩
instance : Mul Single := ⟨lift Float32.mul⟩
instance : Div Single := ⟨lift Float32.div⟩

/-- The number with the other sign. -/
def neg (x : Single) : Single := ⟨x.bits ^^^ 0x80000000⟩

instance : Neg Single := ⟨neg⟩

/-- The number without its sign. -/
def abs (x : Single) : Single := ⟨x.bits &&& 0x7fffffff⟩

/-- The square root. -/
def sqrt (x : Single) : Single := if x.isNaN then x.quiet else ofNative x.native.sqrt

/-- The exponential. -/
def exp (x : Single) : Single := if x.isNaN then x.quiet else ofNative x.native.exp

instance : LT Single := ⟨fun x y => x.native < y.native⟩
instance : LE Single := ⟨fun x y => x.native ≤ y.native⟩

instance (x y : Single) : Decidable (x < y) := inferInstanceAs (Decidable (x.native < y.native))
instance (x y : Single) : Decidable (x ≤ y) := inferInstanceAs (Decidable (x.native ≤ y.native))

/-- Equality of numbers: the two zeros are equal, and a NaN is equal to nothing. -/
@[inline] def equals (x y : Single) : Bool := x.native == y.native

/-- The greater of two numbers, of which none is a NaN; of two equal numbers the second. -/
def max (x y : Single) : Single := if y < x then x else y

/-- The number itself between two bounds, else the nearer bound; a NaN is kept. -/
def clamp (x low high : Single) : Single :=
  if x < low then low else if high < x then high else x

/-- The place of a number in the total order, in which negative numbers run downwards and every NaN
is beyond the infinity of its sign. -/
@[inline] def rank (x : Single) : UInt32 :=
  if x.isNegative then ~~~x.bits else x.bits ||| 0x80000000

/-- The total order. -/
@[inline] def totalOrder (x y : Single) : Ordering := compare x.rank y.rank

/-- A natural number, rounded to the nearest single precision number. -/
def ofNat (n : Nat) : Single := ⟨(UInt64.ofNat n).toFloat32.toBits⟩

/-- An integer, rounded to the nearest single precision number. -/
def ofInt : Int → Single
  | .ofNat n => ofNat n
  | .negSucc n => -ofNat (n + 1)

/-- The sum of a list, from left to right. -/
def sum (xs : List Single) : Single := xs.foldl (· + ·) zero

/-! ## The exact value -/

/-- The size of a finite number as `m * 2 ^ q`: the significand `m` and the exponent `q`. -/
def magnitude (x : Single) : Nat × Int :=
  let exponent := ((x.bits >>> 23) &&& 0xff).toNat
  let fraction := (x.bits &&& 0x7fffff).toNat
  if exponent = 0 then (fraction, -149) else (fraction + Nat.pow 2 23, (exponent : Int) - 150)

end Single

/-- Plus one for black and minus one for white. -/
def Color.sign : Color → Single
  | .black => .one
  | .white => .minusOne

end Goban
