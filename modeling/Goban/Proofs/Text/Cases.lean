import Mathlib.Data.List.Basic
import Goban.Text.Blank
import Goban.Text.Upper

/-!
# Upper and lower case

`upper` knows only the characters whose upper case consists of basic letters and digits. Any way to
write a text in upper case that agrees with it on these characters (`IsUpperCase`), such as that of
the Unicode standard, gives a text of basic letters and digits exactly where `upper` gives it
(`IsUpperCase.flatMap_eq_iff`).
-/

namespace Goban.Text

variable {c : Char} {s t : List Char} {capital : Char → List Char}

/-- Whether a character is a basic capital letter or a digit. -/
def isPlain (c : Char) : Bool := c.isUpper || c.isDigit

/-- A way to write characters in upper case. It may differ from `upperChar` where neither of the two
gives only basic letters and digits. -/
def IsUpperCase (capital : Char → List Char) : Prop :=
  ∀ c, (capital c).all isPlain = true ∨ (upperChar c).all isPlain = true → capital c = upperChar c

theorem isUpperCase_upperChar : IsUpperCase upperChar := fun _ _ => rfl

/-- Where a text in upper case consists of basic letters and digits, it does not matter how the
characters were written in upper case. -/
theorem IsUpperCase.flatMap_eq_iff (h : IsUpperCase capital) (ht : t.all isPlain = true) :
    s.flatMap capital = t ↔ upper s = t := by
  have hall (f : Char → List Char) (hf : s.flatMap f = t) :
      ∀ c ∈ s, (f c).all isPlain = true := by
    intro c hc
    rw [List.all_eq_true]
    intro d hd
    exact List.all_eq_true.mp ht d (hf ▸ List.mem_flatMap.mpr ⟨c, hc, hd⟩)
  constructor
  · intro hs
    rw [← hs]
    exact List.flatMap_congr fun c hc => (h c (.inl (hall capital hs c hc))).symm
  · intro hs
    rw [← hs]
    exact List.flatMap_congr fun c hc => h c (.inr (hall upperChar hs c hc))

/-! ## Letters and digits -/

theorem of_ascii {P : Char → Prop} (h : ∀ n < 128, P (Char.ofNat n)) (hc : c.toNat < 128) : P c :=
  c.ofNat_toNat ▸ h c.toNat hc

theorem toNat_lt_of_isAlphanum (h : c.isAlphanum = true) : c.toNat < 128 := by
  have hbound (last : Char) (hlast : last.toNat < 128) (hle : c.val ≤ last.val) : c.toNat < 128 :=
    Nat.lt_of_le_of_lt (UInt32.le_iff_toNat_le.mp hle) hlast
  rcases Bool.or_eq_true_iff.mp h with hletter | hdigit
  · rcases Bool.or_eq_true_iff.mp hletter with hupper | hlower
    · exact hbound 'Z' (by decide) (of_decide_eq_true hupper).2
    · exact hbound 'z' (by decide) (of_decide_eq_true (Bool.and_eq_true_iff.mp hlower).2)
  · exact hbound '9' (by decide) (of_decide_eq_true (Bool.and_eq_true_iff.mp hdigit).2)

/-- A text of basic capital letters and digits is in upper case. -/
theorem upper_eq_self (h : s.all isPlain = true) : upper s = s := by
  have hchar (c : Char) (hc : isPlain c = true) : upperChar c = [c] := by
    have hascii : c.isAlphanum = true := by
      rw [isPlain, Bool.or_eq_true] at hc
      exact Bool.or_eq_true_iff.mpr (hc.imp_left fun hupper => Bool.or_eq_true_iff.mpr (.inl hupper))
    exact of_ascii (P := fun c => isPlain c = true → upperChar c = [c]) (by decide +kernel)
      (toNat_lt_of_isAlphanum hascii) hc
  rw [upper, List.flatMap_congr fun c hc => hchar c (List.all_eq_true.mp h c hc)]
  exact List.flatMap_singleton' s

/-- A letter or a digit stays one in either case. -/
theorem isAlphanum_toLower (c : Char) : c.toLower.isAlphanum = c.isAlphanum := by
  by_cases hc : c.toNat < 128
  · exact of_ascii (P := fun c => c.toLower.isAlphanum = c.isAlphanum) (by decide +kernel) hc
  · have hupper : ¬ (c.val ≥ 'A'.val ∧ c.val ≤ 'Z'.val) := by
      rintro ⟨-, hle⟩
      have hle : c.toNat ≤ 90 := UInt32.le_iff_toNat_le.mp hle
      omega
    have hself : c.toLower = c := dif_neg hupper
    rw [hself]

/-- The upper case of a letter or a digit can be told from its lower case. -/
theorem upper_eq_map (h : ∀ c ∈ s, c.isAlphanum = true) :
    upper s = (s.map Char.toLower).map Char.toUpper := by
  have hchar (c : Char) (hc : c.isAlphanum = true) : upperChar c = [c.toLower.toUpper] := by
    refine of_ascii (P := fun c => c.isAlphanum = true → upperChar c = [c.toLower.toUpper])
      (by decide +kernel) (toNat_lt_of_isAlphanum hc) hc
  rw [List.map_map, upper, List.flatMap_congr fun c hc => hchar c (h c hc)]
  exact List.flatMap_pure_eq_map _ _

/-- Texts of letters and digits that differ in case only. -/
structure SameButCase (s t : List Char) : Prop where
  lower : s.map Char.toLower = t.map Char.toLower
  alphanum : ∀ c ∈ t, c.isAlphanum = true

namespace SameButCase

theorem alphanum_left (h : SameButCase s t) : ∀ c ∈ s, c.isAlphanum = true := by
  intro c hc
  obtain ⟨d, hd, heq⟩ := List.mem_map.mp (h.lower ▸ List.mem_map_of_mem (f := Char.toLower) hc)
  rw [← isAlphanum_toLower, ← heq, isAlphanum_toLower]
  exact h.alphanum d hd

theorem upper_eq (h : SameButCase s t) : upper s = upper t := by
  rw [upper_eq_map h.alphanum_left, upper_eq_map h.alphanum, h.lower]

end SameButCase

theorem not_blank_of_isAlphanum (h : c.isAlphanum = true) : isBlank c = false :=
  of_ascii (P := fun c => c.isAlphanum = true → isBlank c = false) (by decide +kernel)
    (toNat_lt_of_isAlphanum h) h

end Goban.Text
