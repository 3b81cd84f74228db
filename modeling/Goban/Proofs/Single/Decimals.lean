import Goban.Proofs.Text.Numerals
import Goban.Single.Decimal

/-!
# The characters of numbers in decimal text

However a number is written, its text is made of digits, letters, points and minus signs
(`Single.isNumeric_fixed`, `Single.isNumeric_shortest`).
-/

namespace Goban.Single

variable {x : Single} {s s' : String}

/-- Whether a character is a digit, a letter, a point or a minus sign. -/
def isNumeric (c : Char) : Bool := c.isAlphanum || c == '.' || c == '-'

/-- A text of such characters. -/
def IsNumeric (s : String) : Prop := ∀ c ∈ s.toList, isNumeric c = true

theorem IsNumeric.of_all (h : s.toList.all isNumeric = true) : IsNumeric s := List.all_eq_true.mp h

theorem IsNumeric.append (h : IsNumeric s) (h' : IsNumeric s') : IsNumeric (s ++ s') := by
  intro c hc
  rw [String.toList_append] at hc
  exact (List.mem_append.mp hc).elim (h c) (h' c)

theorem isNumeric_of_subset (h : IsNumeric s) {cs : List Char} (hsub : cs ⊆ s.toList) :
    IsNumeric (String.ofList cs) := by
  intro c hc
  rw [String.toList_ofList] at hc
  exact h c (hsub hc)

theorem isNumeric_toString (n : Nat) : IsNumeric (toString n) := by
  intro c hc
  rw [isNumeric, Char.isAlphanum, Text.isDigit_of_mem_toString hc, Bool.or_true]
  rfl

theorem isNumeric_zeros (n : Nat) : IsNumeric (String.ofList (List.replicate n '0')) := by
  intro c hc
  rw [String.toList_ofList] at hc
  rw [List.eq_of_mem_replicate hc]
  rfl

theorem isNumeric_pointAt (places n : Nat) : IsNumeric (pointAt places n) := by
  have hpadded := (isNumeric_zeros (places + 1 - (toString n).length)).append (isNumeric_toString n)
  unfold pointAt
  simp only
  split
  · exact hpadded
  · exact ((isNumeric_of_subset hpadded (List.take_subset _ _)).append (.of_all rfl)).append
      (isNumeric_of_subset hpadded (List.drop_subset _ _))

theorem isNumeric_signText (x : Single) : IsNumeric x.signText := by
  unfold signText
  split <;> exact .of_all rfl

theorem isNumeric_specialText (h : x.specialText? = some s) : IsNumeric s := by
  unfold specialText? at h
  split at h
  · cases h
    exact .of_all rfl
  · split at h
    · cases h
    · cases h
      exact (isNumeric_signText x).append (.of_all rfl)

/-- A number with its places is written so. -/
theorem isNumeric_fixed (places : Nat) (x : Single) : IsNumeric (x.fixed places) := by
  unfold fixed
  split
  · exact isNumeric_specialText ‹_›
  · exact (isNumeric_signText x).append (isNumeric_pointAt _ _)

/-- So is a number in as few digits as read back. -/
theorem isNumeric_shortest (x : Single) : IsNumeric x.shortest := by
  have hsign := isNumeric_signText x
  unfold shortest
  split
  · exact isNumeric_specialText ‹_›
  · simp only
    split
    · exact hsign.append (.of_all rfl)
    · refine hsign.append ?_
      split
      · exact isNumeric_toString _
      · exact isNumeric_pointAt _ _

end Goban.Single
