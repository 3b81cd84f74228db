import Mathlib.Data.Nat.Digits.Defs
import Goban.Text.Digits

/-!
# Numerals

A numeral is a text of digits, and its value is that of its digits by their places (`IsNumeral`).
`natOfDigits?` reads exactly the numerals. `wordOfDigits?` stops at the first digit at which the
number no longer fits; as a number never gets smaller by one more digit, it reads exactly the
numerals whose value fits (`wordOfDigits?_eq_some`).
-/

namespace Goban.Text

variable {s : List Char} {n : Nat}

/-- A text of digits, with any number of leading zeros, and its value. -/
structure IsNumeral (s : List Char) (n : Nat) : Prop where
  ne_nil : s ≠ []
  digits : ∀ c ∈ s, c.isDigit = true
  value : Nat.ofDigits 10 (s.map digitValue).reverse = n

/-- The number with more digits behind it. -/
def pushDigits (n : Nat) (s : List Char) : Nat := s.foldl (fun n c => 10 * n + digitValue c) n

theorem pushDigits_zero (s : List Char) :
    pushDigits 0 s = Nat.ofDigits 10 (s.map digitValue).reverse := by
  rw [Nat.ofDigits_eq_foldr, List.foldr_reverse, List.foldl_map, pushDigits]
  simp only [Nat.cast_id, Nat.add_comm]

theorem le_pushDigits (n : Nat) (s : List Char) : n ≤ pushDigits n s := by
  induction s generalizing n with
  | nil => exact Nat.le_refl n
  | cons c s ih =>
    have hnext : n ≤ 10 * n + digitValue c := by omega
    exact Nat.le_trans hnext (ih _)

theorem isNumeral_iff : IsNumeral s n ↔
    s.isEmpty = false ∧ s.all Char.isDigit = true ∧ pushDigits 0 s = n := by
  rw [pushDigits_zero, List.isEmpty_eq_false_iff, List.all_eq_true]
  exact ⟨fun h => ⟨h.ne_nil, h.digits, h.value⟩, fun h => ⟨h.1, h.2.1, h.2.2⟩⟩

theorem natOfDigits?_eq_some : natOfDigits? s = some n ↔ IsNumeral s n := by
  rw [isNumeral_iff, natOfDigits?]
  cases s.isEmpty <;> cases s.all Char.isDigit <;> simp [pushDigits]

/-! ## Words -/

/-- What no longer fits never fits again. -/
theorem foldlM_pushDigit? {bound : Nat} (hn : n < bound) :
    s.foldlM (pushDigit? bound) n =
      if pushDigits n s < bound then some (pushDigits n s) else none := by
  induction s generalizing n with
  | nil => exact (if_pos hn).symm
  | cons c s ih =>
    rw [List.foldlM_cons, pushDigit?]
    by_cases hnext : 10 * n + digitValue c < bound
    · rw [if_pos hnext]
      exact ih hnext
    · have hle : bound ≤ pushDigits n (c :: s) :=
        Nat.le_trans (Nat.not_lt.mp hnext) (le_pushDigits _ s)
      rw [if_neg hnext, if_neg (Nat.not_lt.mpr hle)]
      rfl

theorem wordOfDigits?_eq_some : wordOfDigits? s = some n ↔ IsNumeral s n ∧ n < 2 ^ 64 := by
  have hpow : Nat.pow 2 64 = 2 ^ 64 := rfl
  rw [isNumeral_iff, wordOfDigits?, foldlM_pushDigit? (by decide), hpow]
  cases s.isEmpty
  · cases s.all Char.isDigit
    · simp
    · simp only [Bool.false_eq_true, if_false, if_true, true_and]
      constructor
      · intro h
        obtain ⟨hfits, heq⟩ := Option.ite_none_right_eq_some.mp h
        cases heq
        exact ⟨rfl, hfits⟩
      · rintro ⟨rfl, hfits⟩
        exact if_pos hfits
  · simp

/-! ## Numbers as texts -/

theorem isDigit_of_mem_toString {c : Char} (hc : c ∈ (toString n).toList) : c.isDigit = true := by
  rw [Nat.toString_eq_repr, Nat.toList_repr] at hc
  exact Nat.isDigit_of_mem_toDigits (by decide) (by decide) hc

theorem toList_toString_ne_nil (n : Nat) : (toString n).toList ≠ [] := by
  rw [Nat.toString_eq_repr, Nat.toList_repr]
  exact Nat.toDigits_ne_nil

theorem isNumeral_toString (n : Nat) : IsNumeral (toString n).toList n := by
  refine ⟨toList_toString_ne_nil n, fun c hc => isDigit_of_mem_toString hc, ?_⟩
  rw [← pushDigits_zero, Nat.toString_eq_repr, Nat.toList_repr]
  exact Nat.ofDigitChars_eq_foldl.symm.trans (Nat.ofDigitChars_toDigits (by decide) (by decide))

end Goban.Text
