import Mathlib.Data.List.DropRight
import Goban.Text.Blank

/-!
# Texts without blanks at their ends

`trim` takes blanks off both ends of a text and nothing else (`exists_eq_trim`), so what is left has
none there (`isTrimmed_trim`). A text that has none is left as it is, and so is what stands between
blanks (`IsTrimmed.trim_pad`).
-/

namespace Goban.Text

variable {s before after : List Char} {c : Char}

/-- There is no blank at either end. -/
structure IsTrimmed (s : List Char) : Prop where
  head : ∀ c ∈ s.head?, isBlank c = false
  last : ∀ c ∈ s.getLast?, isBlank c = false

instance (s : List Char) : Decidable (IsTrimmed s) :=
  decidable_of_iff
    (s.head?.all (!isBlank ·) = true ∧ s.getLast?.all (!isBlank ·) = true) <| by
      simp only [Option.all_eq_true, Bool.not_eq_true']
      exact ⟨fun h => ⟨h.1, h.2⟩, fun h => ⟨h.head, h.last⟩⟩

theorem dropWhile_of_head (h : ∀ c ∈ s.head?, isBlank c = false) : s.dropWhile isBlank = s := by
  cases s with
  | nil => rfl
  | cons c s => exact List.dropWhile_cons_of_neg (by simp [h c rfl])

theorem not_blank_of_mem_head? (h : c ∈ (s.dropWhile isBlank).head?) : isBlank c = false := by
  have hnot := List.head?_dropWhile_not isBlank s
  rw [Option.mem_def] at h
  rwa [h] at hnot

/-- What is taken off is blank. -/
theorem exists_eq_trim (s : List Char) : ∃ before after : List Char, s = before ++ trim s ++ after ∧
    (∀ c ∈ before, isBlank c = true) ∧ ∀ c ∈ after, isBlank c = true := by
  refine ⟨s.takeWhile isBlank, (s.dropWhile isBlank).rtakeWhile isBlank, ?_,
    fun c => List.mem_takeWhile_imp, fun c => List.mem_rtakeWhile_imp⟩
  show s = s.takeWhile isBlank ++ (s.dropWhile isBlank).rdropWhile isBlank ++ _
  rw [List.append_assoc, List.rdropWhile_append_rtakeWhile, List.takeWhile_append_dropWhile]

theorem mem_of_mem_trim (h : c ∈ trim s) : c ∈ s := by
  obtain ⟨before, after, hs, -⟩ := exists_eq_trim s
  rw [hs]
  exact List.mem_append_left _ (List.mem_append_right _ h)

theorem isTrimmed_trim (s : List Char) : IsTrimmed (trim s) := by
  constructor
  · intro c hc
    obtain ⟨more, hmore⟩ : trim s <+: s.dropWhile isBlank := List.rdropWhile_prefix _ _
    refine @not_blank_of_mem_head? s c ?_
    rw [← hmore, Option.mem_def, List.head?_append, Option.mem_def.mp hc, Option.some_or]
  · intro c hc
    rw [trim, List.getLast?_reverse] at hc
    exact not_blank_of_mem_head? hc

theorem IsTrimmed.trim_eq (h : IsTrimmed s) : trim s = s := by
  rw [trim, dropWhile_of_head h.head, dropWhile_of_head (by simpa using h.last),
    List.reverse_reverse]

/-- Blanks around a text do not matter. -/
theorem trim_pad (hbefore : ∀ c ∈ before, isBlank c = true) (s : List Char)
    (hafter : ∀ c ∈ after, isBlank c = true) : trim (before ++ s ++ after) = trim s := by
  have hreverse : ∀ c ∈ after.reverse, isBlank c = true :=
    fun c hc => hafter c (List.mem_reverse.mp hc)
  rw [trim, trim, List.append_assoc, List.dropWhile_append_of_pos hbefore, List.dropWhile_append]
  split
  · rename_i hs
    rw [List.isEmpty_iff.mp hs, List.dropWhile_eq_nil_iff.mpr hafter]
  · rw [List.reverse_append, List.dropWhile_append_of_pos hreverse]

theorem IsTrimmed.trim_pad (h : IsTrimmed s) (hbefore : ∀ c ∈ before, isBlank c = true)
    (hafter : ∀ c ∈ after, isBlank c = true) : trim (before ++ s ++ after) = s :=
  (Text.trim_pad hbefore s hafter).trans h.trim_eq

theorem trim_eq_nil : trim s = [] ↔ ∀ c ∈ s, isBlank c = true := by
  constructor
  · intro h
    obtain ⟨before, after, hs, hbefore, hafter⟩ := exists_eq_trim s
    rw [h, List.append_nil] at hs
    rw [hs]
    exact List.forall_mem_append.mpr ⟨hbefore, hafter⟩
  · intro h
    have hpad : trim (s ++ [] ++ []) = trim [] := trim_pad h [] (List.forall_mem_nil _)
    rwa [List.append_nil, List.append_nil] at hpad

end Goban.Text
