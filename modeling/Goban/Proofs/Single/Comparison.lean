import Goban.Single
import Mathlib

/-!
# Comparing single precision numbers

A number is compared with another as the machine reads it. Reading a bit pattern and writing it again
keeps what is no NaN (`Single.toBits_native`), so a number that is none equals itself
(`Single.equals_self`). Where the machine finds a number less than another, it stands before the
other in the total order of the bit patterns (`Single.rank_lt_of_lt`). Only a zero and a NaN are
neither less nor greater than zero (`Single.level_iff`).
-/

namespace Goban

namespace Single

open Float.Model (Format UnpackedFloat)
open Float.Model.UnpackedFloat (unpack unpackExponent unpackMantissa unpackSign isNaNBits Sign)

variable {x y : Single}

theorem toNat_unpackExponent (b : BitVec Format.binary32.numBits) :
    (unpackExponent b).toNat = b.toNat / 2 ^ 23 % 2 ^ 8 := by
  simp [unpackExponent, BitVec.extractLsb, Nat.shiftRight_eq_div_pow]

theorem toNat_unpackMantissa (b : BitVec Format.binary32.numBits) :
    (unpackMantissa b).toNat = b.toNat % 2 ^ 23 := by
  simp [unpackMantissa, BitVec.extractLsb]

theorem toNat_bits_abs (x : Single) : x.abs.bits.toNat = x.bits.toNat % 2 ^ 31 := by
  show (x.bits &&& 0x7fffffff).toNat = _
  rw [UInt32.toNat_and]
  exact Nat.and_two_pow_sub_one_eq_mod _ 31

/-- The machine reads a bit pattern as a NaN if it is one. -/
theorem isNaNBits_bits (x : Single) :
    @isNaNBits .binary32 x.bits.toBitVec = x.isNaN := by
  have hmask : (x.bits &&& 0x7fffffff).toNat = x.bits.toNat % 2 ^ 31 := toNat_bits_abs x
  rw [Bool.eq_iff_iff, isNaNBits, decide_eq_true_iff, ← BitVec.toNat_inj, Ne, ← BitVec.toNat_inj,
    toNat_unpackExponent, toNat_unpackMantissa]
  unfold isNaN
  rw [decide_eq_true_iff, UInt32.lt_iff_toNat_lt, hmask]
  have hbits : x.bits.toBitVec.toNat = x.bits.toNat := rfl
  have hgreatest : (-1#8).toNat = 255 := rfl
  have hbound : (0x7f800000 : UInt32).toNat = 255 * 2 ^ 23 := rfl
  rw [hbits, hgreatest, hbound, BitVec.toNat_zero]
  omega

/-- What is no NaN is kept bit by bit. -/
theorem toBits_native (h : x.isNaN = false) : x.native.toBits = x.bits := by
  rw [← UInt32.toBitVec_inj]
  refine (@UnpackedFloat.pack_unpack .binary32 x.bits.toBitVec (by decide)).trans (if_neg ?_)
  rw [isNaNBits_bits, h]
  exact Bool.false_ne_true

/-- A number that is no NaN equals itself. -/
theorem equals_self (h : x.isNaN = false) : x.equals x = true := by
  have hne : x.native ≠ Float32.nan := by
    rw [Ne, ← Float32.toBits_inj, toBits_native h, ← UInt32.toBitVec_inj]
    intro hnan
    rw [← isNaNBits_bits, hnan] at h
    exact Bool.false_ne_true (h.symm.trans UnpackedFloat.isNaNBits_packedNaN)
  exact Float32.beq_iff_ne_nan_and_eq.mpr ⟨hne, hne, .inl rfl⟩

/-! ## The total order -/

theorem isNegative_iff (x : Single) : x.isNegative = true ↔ 2 ^ 31 ≤ x.bits.toNat := by
  have hmask : (x.bits &&& 0x80000000).toNat = 2 ^ 31 * (x.bits.toNat / 2 ^ 31 % 2) := by
    rw [UInt32.toNat_and]
    show x.bits.toNat &&& 2 ^ 31 = _
    rw [Nat.and_two_pow, Nat.toNat_testBit, Nat.mul_comm]
  have hbound := x.bits.toNat_lt
  unfold isNegative
  rw [bne_iff_ne, Ne, ← UInt32.toNat_inj, hmask]
  show ¬ _ = 0 ↔ _
  omega

/-- The place of a number in the total order, by its sign. -/
theorem toNat_rank (x : Single) : x.rank.toNat =
    if x.isNegative then 2 ^ 32 - 1 - x.bits.toNat else 2 ^ 31 + x.bits.toNat := by
  unfold rank
  split
  · rw [UInt32.toNat_not]
    rfl
  · rename_i hpositive
    rw [isNegative_iff, Nat.not_le] at hpositive
    rw [UInt32.toNat_or, Nat.or_comm]
    exact (Nat.two_pow_add_eq_or_of_lt hpositive 1).symm

/-- The sign of a number as the machine reads it. -/
def side (x : Single) : Sign := if x.isNegative then .negative else .positive

theorem ofBitVec_unpackSign (x : Single) :
    Sign.ofBitVec (@unpackSign .binary32 x.bits.toBitVec) = x.side := by
  have hsign : (@unpackSign .binary32 x.bits.toBitVec).toNat =
      x.bits.toNat / 2 ^ 31 % 2 := by
    simp [unpackSign, BitVec.extractLsb, Nat.shiftRight_eq_div_pow]
  have hbound := x.bits.toNat_lt
  have hpositive : @unpackSign .binary32 x.bits.toBitVec = 0#1 ↔
      ¬x.isNegative = true := by
    rw [← BitVec.toNat_inj, hsign, isNegative_iff]
    show _ = 0 ↔ _
    omega
  unfold Sign.ofBitVec side
  by_cases hnegative : x.isNegative = true
  · rw [if_pos hnegative]
    exact if_neg fun hzero => hpositive.mp hzero hnegative
  · rw [if_neg hnegative]
    exact if_pos (hpositive.mpr hnegative)

theorem side_eq_negative : x.side = .negative ↔ 2 ^ 31 ≤ x.bits.toNat := by
  rw [← isNegative_iff]
  unfold side
  split <;> simp [*]

theorem side_eq_positive : x.side = .positive ↔ x.bits.toNat < 2 ^ 31 := by
  rw [← Nat.not_le, ← isNegative_iff]
  unfold side
  split <;> simp [*]

/-- What the machine reads, by the sign and the bits below it. -/
inductive Sized : UnpackedFloat → Sign → Nat → Prop where
  | infinity (s : Sign) : Sized (.infinity s) s (255 * 2 ^ 23)
  | zero (s : Sign) : Sized (.zero s) s 0
  | subnormal {w m : Nat} {e : Int} (s : Sign) (h : 0 < m) (hm : m = w) (he : e = -149)
      (hw : w < 2 ^ 23) : Sized (.finite s m e h) s w
  | normal {w m : Nat} {e : Int} (s : Sign) (h : 0 < m) (hm : m = w % 2 ^ 23 + 2 ^ 23)
      (he : e = (w / 2 ^ 23 : Nat) - 150) (hlow : 2 ^ 23 ≤ w) (hw : w < 255 * 2 ^ 23) :
      Sized (.finite s m e h) s w

/-- What is less has the lesser sign, or the same sign and is nearer to its end. -/
theorem Sized.lt {a b : UnpackedFloat} {s t : Sign} {v w : Nat} (ha : Sized a s v)
    (hb : Sized b t w) (h : a.lt b = true) :
    s = .negative ∧ t = .positive ∨ s = .positive ∧ t = .positive ∧ v < w ∨
      s = .negative ∧ t = .negative ∧ w < v := by
  unfold UnpackedFloat.lt at h
  rw [beq_iff_eq] at h
  cases ha <;> cases hb <;> cases s <;> cases t <;>
    simp [UnpackedFloat.compare, Ordering.then_eq_lt, Ordering.then_eq_gt, compare_lt_iff_lt,
      compare_gt_iff_gt] at h ⊢ <;> omega

theorem sized_unpack (h : x.isNaN = false) :
    Sized (unpack .binary32 x.bits.toBitVec) x.side (x.bits.toNat % 2 ^ 31) := by
  have hexponent : (@unpackExponent .binary32 x.bits.toBitVec).toNat =
    x.bits.toNat / 2 ^ 23 % 2 ^ 8 := toNat_unpackExponent x.bits.toBitVec
  have hmantissa : (@unpackMantissa .binary32 x.bits.toBitVec).toNat =
    x.bits.toNat % 2 ^ 23 := toNat_unpackMantissa x.bits.toBitVec
  have hgreatest : (-1#8).toNat = 255 := rfl
  have hbias : Format.binary32.exponentBias = 127 := rfl
  rw [← isNaNBits_bits, isNaNBits, decide_eq_false_iff_not] at h
  rw [← ofBitVec_unpackSign]
  unfold unpack
  simp only
  split
  · rename_i hmax
    split
    · rename_i hzero
      have hsize : x.bits.toNat % 2 ^ 31 = 255 * 2 ^ 23 := by
        rw [hmax, hgreatest] at hexponent
        rw [hzero, BitVec.toNat_zero] at hmantissa
        omega
      rw [hsize]
      exact .infinity _
    · rename_i hsome
      exact absurd ⟨hmax, hsome⟩ h
  · rename_i hmax
    rw [← BitVec.toNat_inj, hexponent, hgreatest] at hmax
    clear h
    split
    · rename_i hleast
      rw [hleast, BitVec.toNat_zero] at hexponent
      split
      · rename_i hzero
        have hsize : x.bits.toNat % 2 ^ 31 = 0 := by
          rw [hzero, BitVec.toNat_zero] at hmantissa
          omega
        rw [hsize]
        exact .zero _
      · rename_i hsome
        rw [← BitVec.toNat_inj, hmantissa, BitVec.toNat_zero] at hsome
        refine .subnormal _ _ ?_ ?_ ?_
        · rw [hmantissa]
          omega
        · rw [hleast]
          rfl
        · omega
    · rename_i hleast
      rw [← BitVec.toNat_inj, hexponent, BitVec.toNat_zero] at hleast
      have hor : 1 <<< 23 ||| x.bits.toNat % 2 ^ 23 = 1 <<< 23 + x.bits.toNat % 2 ^ 23 :=
        (Nat.shiftLeft_add_eq_or_of_lt (Nat.mod_lt _ (by decide)) 1).symm
      refine .normal _ _ ?_ ?_ ?_ ?_
      · rw [BitVec.toNat_append, hmantissa]
        exact hor.trans (by omega)
      · rw [hexponent, hbias]
        omega
      · omega
      · omega

theorem unpack_native (h : x.isNaN = false) :
    x.native.toModel.unpack = unpack .binary32 x.bits.toBitVec :=
  congrArg (fun bits : UInt32 => unpack Format.binary32 bits.toBitVec) (toBits_native h)

theorem unpack_native_of_isNaN (h : x.isNaN = true) : x.native.toModel.unpack = .notANumber := by
  have hpacked := @UnpackedFloat.pack_unpack .binary32 x.bits.toBitVec (by decide)
  rw [isNaNBits_bits, if_pos h] at hpacked
  exact (congrArg (unpack .binary32) hpacked).trans UnpackedFloat.unpack_packedNaN

theorem lt_iff_unpack : x < y ↔ x.native.toModel.unpack.lt y.native.toModel.unpack = true := by
  exact decide_eq_true_iff

/-- A number that is less has an earlier place in the total order. -/
theorem rank_lt_of_lt (h : x < y) : x.rank < y.rank := by
  have hlt := lt_iff_unpack.mp h
  cases hx : x.isNaN with
  | true =>
    rw [unpack_native_of_isNaN hx] at hlt
    cases hlt
  | false =>
    cases hy : y.isNaN with
    | true =>
      rw [unpack_native_of_isNaN hy] at hlt
      cases hunpack : x.native.toModel.unpack <;> rw [hunpack] at hlt <;> cases hlt
    | false =>
      rw [unpack_native hx, unpack_native hy] at hlt
      have hlt := (sized_unpack hx).lt (sized_unpack hy) hlt
      simp only [side_eq_negative, side_eq_positive] at hlt
      rw [UInt32.lt_iff_toNat_lt, toNat_rank, toNat_rank]
      have hxbound := x.bits.toNat_lt
      have hybound := y.bits.toNat_lt
      split <;> split <;> rename_i hxn hyn <;> rw [isNegative_iff] at hxn hyn <;> omega

/-- The total order puts no number before one that is less. -/
theorem not_lt_of_totalOrder (h : (x.totalOrder y).isLE) : ¬y < x := by
  intro hlt
  unfold totalOrder at h
  have hswap : compare x.rank y.rank = (compare y.rank x.rank).swap := Std.OrientedOrd.eq_swap
  rw [hswap, Std.compare_eq_lt.mpr (rank_lt_of_lt hlt)] at h
  cases h

/-! ## Signs -/

theorem unpack_zero : zero.native.toModel.unpack = .zero .positive := by
  rw [unpack_native (by decide)]
  rfl

theorem Sized.zero_lt_iff {a : UnpackedFloat} {s t : Sign} {w : Nat} (ha : Sized a s w) :
    (UnpackedFloat.zero t).lt a = true ↔ s = .positive ∧ w ≠ 0 := by
  unfold UnpackedFloat.lt
  cases ha <;> cases s <;> simp [UnpackedFloat.compare] <;> omega

theorem Sized.lt_zero_iff {a : UnpackedFloat} {s t : Sign} {w : Nat} (ha : Sized a s w) :
    a.lt (UnpackedFloat.zero t) = true ↔ s = .negative ∧ w ≠ 0 := by
  unfold UnpackedFloat.lt
  cases ha <;> cases s <;> simp [UnpackedFloat.compare] <;> omega

theorem abs_eq_zero_iff (x : Single) : x.abs = .zero ↔ x.bits.toNat % 2 ^ 31 = 0 := by
  rw [← toNat_bits_abs]
  constructor
  · intro h
    rw [h]
    rfl
  · intro h
    exact congrArg Single.mk (UInt32.toNat_inj.mp h)

theorem zero_lt_iff (x : Single) :
    .zero < x ↔ x.isNaN = false ∧ x.isNegative = false ∧ x.abs ≠ .zero := by
  rw [lt_iff_unpack, unpack_zero]
  cases hx : x.isNaN with
  | true =>
    rw [unpack_native_of_isNaN hx]
    exact iff_of_false nofun nofun
  | false =>
    rw [unpack_native hx, (sized_unpack hx).zero_lt_iff, side_eq_positive, ← Nat.not_le,
      ← isNegative_iff, Bool.not_eq_true, Ne, Ne, abs_eq_zero_iff, and_iff_right rfl]

theorem lt_zero_iff (x : Single) :
    x < .zero ↔ x.isNaN = false ∧ x.isNegative = true ∧ x.abs ≠ .zero := by
  rw [lt_iff_unpack, unpack_zero]
  cases hx : x.isNaN with
  | true =>
    rw [unpack_native_of_isNaN hx]
    exact iff_of_false nofun nofun
  | false =>
    rw [unpack_native hx, (sized_unpack hx).lt_zero_iff, side_eq_negative, ← isNegative_iff, Ne,
      Ne, abs_eq_zero_iff, and_iff_right rfl]

/-- A number above zero does not equal zero. -/
theorem not_equals_zero {x : Single} (h : .zero < x) : x.equals .zero = false := by
  have hlt : zero.native < x.native := h
  refine Bool.eq_false_iff.mpr fun heq => ?_
  obtain ⟨-, -, hsame⟩ := Float32.beq_iff_ne_nan_and_eq.mp heq
  rcases hsame with hx | ⟨hx, -⟩ | ⟨hx, -⟩ <;> rw [hx] at hlt <;> revert hlt <;> decide

/-- A number that is neither less nor greater than zero is a NaN, or a zero of either sign. -/
theorem level_iff (x : Single) :
    ¬ .zero < x ∧ ¬ x < .zero ↔ x.isNaN = true ∨ x.abs = .zero := by
  rw [zero_lt_iff, lt_zero_iff]
  cases x.isNaN <;> cases x.isNegative <;> simp

end Single

end Goban
