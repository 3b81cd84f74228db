import Goban.Text.Split

/-!
# Parts and lines

A text is its parts with the separators between them (`eq_of_split`), and behind another text with a
separator between them it adds its parts to those of the other (`split_append_separator`). A text is
a list of lines if each of them has its end (`lines?`), and then what is added to it are the lines
behind them (`lines?_append`).
-/

namespace Goban.Text

variable {separator c : Char} {s t part line : List Char} {ls : List (List Char)}

theorem split_ne_nil (separator : Char) (s : List Char) : split separator s ≠ [] := by
  cases s with
  | nil => nofun
  | cons c s =>
    rw [split]
    split
    · nofun
    · split <;> nofun

/-- There is no separator in a part. -/
theorem notMem_of_mem_split (h : part ∈ split separator s) : separator ∉ part := by
  induction s generalizing part with
  | nil =>
    rw [split, List.mem_singleton] at h
    rw [h]
    exact List.not_mem_nil
  | cons c s ih =>
    rw [split] at h
    split at h
    · rcases List.mem_cons.mp h with rfl | h
      · exact List.not_mem_nil
      · exact ih h
    · rename_i hc
      cases hs : split separator s with
      | nil => exact absurd hs (split_ne_nil separator s)
      | cons first parts =>
        rw [hs] at h ih
        rcases List.mem_cons.mp h with rfl | h
        · exact List.not_mem_cons_of_ne_of_not_mem (Ne.symm hc) (ih List.mem_cons_self)
        · exact ih (List.mem_cons_of_mem _ h)

/-- A text is its parts with separators between them. -/
theorem eq_of_split {parts : List (List Char)} (h : split separator s = part :: parts) :
    s = part ++ parts.flatMap (separator :: ·) := by
  induction s generalizing part parts with
  | nil =>
    cases h
    rfl
  | cons c s ih =>
    rw [split] at h
    split at h
    · rename_i hc
      obtain ⟨rfl, rfl⟩ := List.cons.inj h
      cases hs : split separator s with
      | nil => exact absurd hs (split_ne_nil separator s)
      | cons first parts => rw [List.nil_append, List.flatMap_cons, hc, List.cons_append, ← ih hs]
    · cases hs : split separator s with
      | nil => exact absurd hs (split_ne_nil separator s)
      | cons first others =>
        rw [hs] at h
        obtain ⟨rfl, rfl⟩ := List.cons.inj h
        rw [List.cons_append, ← ih hs]

/-- A text without the separator is one part. -/
theorem split_of_notMem (h : separator ∉ s) : split separator s = [s] := by
  induction s with
  | nil => rfl
  | cons c s ih =>
    obtain ⟨hc, hs⟩ := not_or.mp (mt List.mem_cons.mpr h)
    rw [split, if_neg (Ne.symm hc), ih hs]

theorem split_append_separator (separator : Char) (s t : List Char) :
    split separator (s ++ separator :: t) = split separator s ++ split separator t := by
  induction s with
  | nil => simp [split]
  | cons c s ih =>
    rw [List.cons_append, split, split, ih]
    split
    · rfl
    · cases hs : split separator s with
      | nil => exact absurd hs (split_ne_nil separator s)
      | cons part parts => rfl

/-- A text that ends with a separator is followed by the parts of what is added to it. -/
theorem split_append_of_ends (h : split separator s = ls ++ [[]]) (t : List Char) :
    split separator (s ++ t) = ls ++ split separator t := by
  induction s generalizing ls with
  | nil =>
    cases ls with
    | nil => rfl
    | cons part ls => cases ls <;> cases h
  | cons c s ih =>
    rw [List.cons_append, split]
    rw [split] at h
    split at h
    · rename_i hc
      rw [if_pos hc]
      cases ls with
      | nil => exact absurd (List.cons.inj h).2 (split_ne_nil separator s)
      | cons part ls =>
        obtain ⟨rfl, hs⟩ := List.cons.inj h
        rw [ih hs]
        rfl
    · rename_i hc
      rw [if_neg hc]
      cases hs : split separator s with
      | nil => exact absurd hs (split_ne_nil separator s)
      | cons part parts =>
        rw [hs] at h ih
        cases ls with
        | nil => cases h
        | cons part' ls =>
          obtain ⟨rfl, rfl⟩ := List.cons.inj h
          rw [@ih (part :: ls) rfl]
          rfl

/-- The lines of a text in which every line has its end; none if the last one has not. -/
def lines? (s : List Char) : Option (List (List Char)) :=
  if (split '\n' s).getLast? = some [] then some (split '\n' s).dropLast else none

theorem split_of_lines? (h : lines? s = some ls) : split '\n' s = ls ++ [[]] := by
  unfold lines? at h
  split at h
  · rename_i hlast
    cases h
    obtain ⟨parts, hparts⟩ := List.getLast?_eq_some_iff.mp hlast
    rw [hparts, List.dropLast_concat]
  · cases h

/-- What is added to lines are the lines behind them. -/
theorem lines?_append (h : lines? s = some ls) (t : List Char) :
    lines? (s ++ t) = (lines? t).map (ls ++ ·) := by
  have ht := split_ne_nil '\n' t
  have hlast : (ls ++ split '\n' t).getLast? = (split '\n' t).getLast? := by
    rw [List.getLast?_append, List.getLast?_eq_some_getLast ht, Option.some_or]
  rw [lines?, lines?, split_append_of_ends (split_of_lines? h), List.dropLast_append_of_ne_nil ht,
    hlast]
  split <;> rfl

/-- A text without a line break is one line when it is given its end. -/
theorem lines?_line (h : '\n' ∉ line) : lines? (line ++ ['\n']) = some [line] := by
  rw [lines?, split_append_separator, split_of_notMem h]
  rfl

end Goban.Text
