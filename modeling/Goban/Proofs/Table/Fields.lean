import Goban.Proofs.Text.Ends
import Goban.Proofs.Text.Parts
import Goban.Table.Spec

/-!
# Three fields with commas between them

A text names a table exactly if it is three parts with commas between them, and none of them is
blank (`TableSpec.parse_eq_some`). The empty text names none (`TableSpec.parse_eq_none`), and every
other one is refused (`TableSpec.parse_eq_error`). A table is named by the text of its fields if
these can be fields at all (`TableSpec.IsProper`), and only such tables are ever named, so that what
was read once is read again from its own text (`TableSpec.parse_exact`).
-/

namespace Goban.TableSpec

open Text (trim split IsTrimmed isBlank)

variable {s : String} {spec : TableSpec} {a b c : List Char}

/-- Three texts with commas between them. -/
def joined (a b c : List Char) : List Char := a ++ ',' :: (b ++ ',' :: c)

/-- The table that three parts name. -/
def ofParts (a b c : List Char) : TableSpec :=
  ⟨String.ofList (trim a), String.ofList (trim b), String.ofList (trim c)⟩

/-- The text of a table. -/
def text (spec : TableSpec) : String :=
  String.ofList (joined spec.project.toList spec.inst.toList spec.table.toList)

/-- A text has two commas and no blank part, and a table has the trimmed parts for its fields, in
their order. -/
def Spells (s : String) (spec : TableSpec) : Prop :=
  s.toList.count ',' = 2 ∧ ∃ a b c, s.toList = joined a b c ∧
    (∃ x ∈ a, isBlank x = false) ∧ (∃ x ∈ b, isBlank x = false) ∧ (∃ x ∈ c, isBlank x = false) ∧
    spec = ofParts a b c

/-- A text that can be a field. -/
structure IsField (f : String) : Prop where
  ne_empty : f ≠ ""
  comma : ',' ∉ f.toList
  trimmed : IsTrimmed f.toList

/-- Three texts that can be fields. -/
structure IsProper (spec : TableSpec) : Prop where
  project : IsField spec.project
  inst : IsField spec.inst
  table : IsField spec.table

/-! ## Parts -/

theorem split_eq_iff {t : List Char} :
    split ',' t = [a, b, c] ↔ t.count ',' = 2 ∧ t = joined a b c := by
  constructor
  · intro h
    have hno : ∀ part ∈ [a, b, c], part.count ',' = 0 := fun part hpart =>
      List.count_eq_zero.mpr (Text.notMem_of_mem_split (h ▸ hpart))
    have ht : t = joined a b c := by
      rw [Text.eq_of_split h]
      simp [joined]
    refine ⟨?_, ht⟩
    rw [ht]
    simp [joined, List.count_append, hno]
  · rintro ⟨hcount, rfl⟩
    simp only [joined, List.count_append, List.count_cons_self] at hcount
    rw [joined, Text.split_append_separator, Text.split_append_separator,
      Text.split_of_notMem (List.count_eq_zero.mp (by omega)),
      Text.split_of_notMem (List.count_eq_zero.mp (by omega)),
      Text.split_of_notMem (List.count_eq_zero.mp (by omega))]
    rfl

theorem trim_ne_nil {t : List Char} : trim t ≠ [] ↔ ∃ x ∈ t, isBlank x = false := by
  rw [Ne, Text.trim_eq_nil]
  simp

/-- A text spells a table exactly if it has three parts that are not blank. -/
theorem spells_iff : Spells s spec ↔ ∃ a b c, split ',' s.toList = [a, b, c] ∧
    (trim a ≠ [] ∧ trim b ≠ [] ∧ trim c ≠ []) ∧ spec = ofParts a b c := by
  simp only [Spells, split_eq_iff, trim_ne_nil]
  constructor
  · rintro ⟨hcount, a, b, c, hs, ha, hb, hc, hspec⟩
    exact ⟨a, b, c, ⟨hcount, hs⟩, ⟨ha, hb, hc⟩, hspec⟩
  · rintro ⟨a, b, c, ⟨hcount, hs⟩, ⟨ha, hb, hc⟩, hspec⟩
    exact ⟨hcount, a, b, c, hs, ha, hb, hc, hspec⟩

/-! ## Reading -/

theorem parse_eq_none : parse s = .ok none ↔ s = "" := by
  rw [← String.isEmpty_iff]
  constructor
  · intro h
    unfold parse at h
    split at h
    · assumption
    · split at h
      · split at h <;> cases h
      · cases h
  · intro h
    rw [parse, if_pos h]

theorem parse_of_spells (h : Spells s spec) : parse s = .ok (some spec) := by
  obtain ⟨a, b, c, hs, ⟨ha, hb, hc⟩, rfl⟩ := spells_iff.mp h
  have hne : s.isEmpty = false := by
    rw [Bool.eq_false_iff, Ne, String.isEmpty_iff]
    rintro rfl
    exact absurd h.1 (by decide)
  simp [parse, hne, hs, ha, hb, hc, ofParts]

theorem spells_of_parse (h : parse s = .ok (some spec)) : Spells s spec := by
  unfold parse at h
  split at h
  · cases h
  · split at h
    · rename_i project inst table hparts
      obtain ⟨a, rest, hs, rfl, hrest⟩ := List.map_eq_cons_iff.mp hparts
      obtain ⟨b, last, rfl, rfl, hlast⟩ := List.map_eq_cons_iff.mp hrest
      obtain ⟨c, rfl, rfl⟩ := List.map_eq_singleton_iff.mp hlast
      split at h
      · cases h
      · rename_i hempty
        cases h
        simp only [Bool.or_eq_true, List.isEmpty_iff, not_or] at hempty
        exact spells_iff.mpr ⟨a, b, c, hs, ⟨hempty.1.1, hempty.1.2, hempty.2⟩, rfl⟩
    · cases h

theorem parse_eq_some : parse s = .ok (some spec) ↔ Spells s spec :=
  ⟨spells_of_parse, parse_of_spells⟩

/-- What is refused is given back. -/
theorem eq_of_parse_eq_error {e : String} (h : parse s = .error e) : e = s := by
  unfold parse at h
  split at h
  · cases h
  · split at h
    · split at h <;> cases h
      rfl
    · cases h
      rfl

theorem parse_eq_error {e : String} :
    parse s = .error e ↔ e = s ∧ s ≠ "" ∧ ∀ spec, ¬ Spells s spec := by
  constructor
  · intro h
    refine ⟨eq_of_parse_eq_error h, fun hs => ?_, fun spec hspec => ?_⟩
    · rw [parse_eq_none.mpr hs] at h
      cases h
    · rw [parse_of_spells hspec] at h
      cases h
  · rintro ⟨rfl, hne, hno⟩
    cases hresult : parse e with
    | error e' => rw [eq_of_parse_eq_error hresult]
    | ok table =>
      cases table with
      | none => exact absurd (parse_eq_none.mp hresult) hne
      | some spec => exact absurd (spells_of_parse hresult) (hno spec)

/-! ## Reading again -/

/-- Only tables of proper fields are named. -/
theorem Spells.isProper (h : Spells s spec) : spec.IsProper := by
  obtain ⟨a, b, c, hs, ⟨ha, hb, hc⟩, rfl⟩ := spells_iff.mp h
  have hfield (part : List Char) (hpart : part ∈ [a, b, c]) (hne : trim part ≠ []) :
      IsField (String.ofList (trim part)) := by
    refine ⟨?_, ?_, ?_⟩
    · rwa [Ne, String.ofList_eq_empty_iff]
    · rw [String.toList_ofList]
      exact fun hmem => Text.notMem_of_mem_split (hs ▸ hpart) (Text.mem_of_mem_trim hmem)
    · rw [String.toList_ofList]
      exact Text.isTrimmed_trim part
  exact ⟨hfield a (by simp) ha, hfield b (by simp) hb, hfield c (by simp) hc⟩

theorem IsField.trim_eq {f : String} (h : IsField f) : String.ofList (trim f.toList) = f := by
  rw [h.trimmed.trim_eq, String.ofList_toList]

theorem IsField.trim_ne_nil {f : String} (h : IsField f) : trim f.toList ≠ [] := by
  rw [h.trimmed.trim_eq]
  exact mt String.toList_eq_nil_iff.mp h.ne_empty

/-- A table of proper fields is named by their text. -/
theorem IsProper.spells (h : spec.IsProper) : Spells spec.text spec := by
  have hcount (f : String) (hf : IsField f) : f.toList.count ',' = 0 :=
    List.count_eq_zero.mpr hf.comma
  refine spells_iff.mpr ⟨spec.project.toList, spec.inst.toList, spec.table.toList, ?_,
    ⟨h.project.trim_ne_nil, h.inst.trim_ne_nil, h.table.trim_ne_nil⟩, ?_⟩
  · rw [text, String.toList_ofList, split_eq_iff]
    simp [joined, List.count_append, hcount _ h.project, hcount _ h.inst, hcount _ h.table]
  · rw [ofParts, h.project.trim_eq, h.inst.trim_eq, h.table.trim_eq]

/-- The empty text names no table, a text with two commas and no blank part the table of its trimmed
parts, and any other text is refused and given back. A table that was named is named by the text of
its fields again, and so is every table of fields without commas and without blanks at their
ends. -/
theorem parse_exact :
    (∀ s, parse s = .ok none ↔ s = "") ∧
    (∀ s spec, parse s = .ok (some spec) ↔ Spells s spec) ∧
    (∀ s e, parse s = .error e ↔ e = s ∧ s ≠ "" ∧ ∀ spec, ¬ Spells s spec) ∧
    (∀ s spec, parse s = .ok (some spec) → parse spec.text = .ok (some spec)) ∧
    ∀ spec, IsProper spec → parse spec.text = .ok (some spec) :=
  ⟨fun _ => parse_eq_none, fun _ _ => parse_eq_some, fun _ _ => parse_eq_error,
    fun _ _ h => parse_of_spells (spells_of_parse h).isProper.spells,
    fun _ h => parse_of_spells h.spells⟩

theorem parse_exact_padded :
    parse " club,\u3000blitz\t,games 1" = .ok (some ⟨"club", "blitz", "games 1"⟩) ∧
      IsProper ⟨"club", "blitz", "games 1"⟩ ∧
      parse "club,blitz,games 1" = .ok (some ⟨"club", "blitz", "games 1"⟩) := by
  have ok : parse " club,\u3000blitz\t,games 1" = .ok (some ⟨"club", "blitz", "games 1"⟩) := rfl
  have hproper : IsProper ⟨"club", "blitz", "games 1"⟩ :=
    ⟨⟨by decide, by decide, by decide⟩, ⟨by decide, by decide, by decide⟩,
      ⟨by decide, by decide, by decide⟩⟩
  have hagain := parse_exact.2.2.2.2 _ hproper
  rw [show text ⟨"club", "blitz", "games 1"⟩ = "club,blitz,games 1" from rfl] at hagain
  exact ⟨ok, hproper, hagain⟩

end Goban.TableSpec
