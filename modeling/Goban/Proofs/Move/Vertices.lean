import Mathlib.Data.List.Nodup
import Goban.Move.Notation
import Goban.Proofs.Text.Cases
import Goban.Proofs.Text.Ends
import Goban.Proofs.Text.Numerals

/-!
# Vertices in text

In upper case a move is spelled by one of two words or by a vertex, which is a column letter and the
numeral of a row, counted from the bottom (`Move.Spells`). `ofVertex?` reads exactly these
spellings, whatever stands in the text otherwise (`Move.vertices_exact`): what is too large for a
machine word is no row of the board either, and every letter and row that pass are a point of it
(`Move.IsVertex.exists_point`). Every move is read back from its own text (`Move.spells_vertex`), in
either case and with blanks around it.
-/

namespace Goban.Move

variable {u : List Char} {letter : Char} {row column : Nat} {m : Move} {p : Point}

/-- The text is a column letter and a numeral, whose value is the number of a row. -/
structure IsVertex (u : List Char) (letter : Char) (row : Nat) : Prop where
  mem : letter ∈ columnLetters
  numeral : ∃ digits, u = letter :: digits ∧ Text.IsNumeral digits row
  row : 1 ≤ row ∧ row ≤ side

/-- What an upper case text spells. -/
inductive Spells : List Char → Move → Prop where
  | pass : Spells ['P', 'A', 'S', 'S'] .pass
  | resign : Spells ['R', 'E', 'S', 'I', 'G', 'N'] .resign
  /-- Rows are counted from the bottom. -/
  | stone {u : List Char} {letter : Char} {row : Nat} {p : Point} (vertex : IsVertex u letter row)
    (column : columnLetters[p.column]? = some letter) (place : p.row + row = side) :
    Spells u (.stone p)

/-! ## Letters and rows -/

theorem nodup_columnLetters : columnLetters.Nodup := by decide

theorem idxOf?_columnLetters :
    columnLetters.idxOf? letter = some column ↔ columnLetters[column]? = some letter := by
  rw [List.idxOf?_eq_some_iff, List.getElem?_eq_some_iff]
  constructor
  · rintro ⟨hlt, hget, -⟩
    exact ⟨hlt, hget⟩
  · rintro ⟨hlt, hget⟩
    refine ⟨hlt, hget, fun j hj hget' => ?_⟩
    exact Nat.ne_of_lt hj (nodup_columnLetters.getElem_inj_iff.mp (hget'.trans hget.symm))

theorem column_lt_side (h : columnLetters[column]? = some letter) : column < side :=
  (List.getElem?_eq_some_iff.mp h).1

/-- A row from the bottom and a column letter are a point. -/
theorem spells_ofRowColumn (h : IsVertex u letter row)
    (hcolumn : columnLetters[column]? = some letter) (hr : side - row < side) (hc : column < side) :
    Spells u (.stone (.ofRowColumn (side - row) column hr hc)) := by
  refine .stone h ?_ ?_
  · rwa [Point.column_ofRowColumn]
  · rw [Point.row_ofRowColumn]
    exact Nat.sub_add_cancel h.row.2

/-- No vertex is off the board. -/
theorem IsVertex.exists_point (h : IsVertex u letter row) : ∃ p, Spells u (.stone p) := by
  obtain ⟨column, hcolumn⟩ := List.getElem?_of_mem h.mem
  have hr : side - row < side := Nat.sub_lt (by decide) h.row.1
  exact ⟨_, spells_ofRowColumn h hcolumn hr (column_lt_side hcolumn)⟩

/-! ## Reading -/

theorem ofPointVertex?_of_vertex (h : IsVertex u letter row)
    (hcolumn : columnLetters[p.column]? = some letter) (hplace : p.row + row = side) :
    ofPointVertex? u = some (.stone p) := by
  obtain ⟨digits, rfl, hnumeral⟩ := h.numeral
  have hfits : row < 2 ^ 64 := Nat.lt_of_le_of_lt h.row.2 (by decide)
  have hread : Text.wordOfDigits? digits = some row :=
    Text.wordOfDigits?_eq_some.mpr ⟨hnumeral, hfits⟩
  have hp : side - row = p.row := by omega
  simp [ofPointVertex?, idxOf?_columnLetters.mpr hcolumn, hread, h.row, p.column_lt, hp,
    p.ofRowColumn_row_column]

theorem spells_of_ofPointVertex? (h : ofPointVertex? u = some m) : Spells u m := by
  cases u with
  | nil => cases h
  | cons letter digits =>
    obtain ⟨column, hcolumn, h⟩ := Option.bind_eq_some_iff.mp h
    obtain ⟨row, hrow, h⟩ := Option.bind_eq_some_iff.mp h
    obtain ⟨hnumeral, -⟩ := Text.wordOfDigits?_eq_some.mp hrow
    have hcolumn := idxOf?_columnLetters.mp hcolumn
    split at h
    · rename_i hbounds
      cases h
      have hvertex : IsVertex (letter :: digits) letter row :=
        ⟨List.mem_of_getElem? hcolumn, ⟨digits, rfl, hnumeral⟩, hbounds.1⟩
      exact spells_ofRowColumn hvertex hcolumn _ _
    · cases h

/-- The words are no vertices. -/
theorem IsVertex.ne_cons (h : IsVertex u letter row) {c : Char} {rest : List Char}
    (hc : c ∉ columnLetters) : u ≠ c :: rest := by
  obtain ⟨digits, rfl, -⟩ := h.numeral
  rintro heq
  cases heq
  exact hc h.mem

theorem ofVertex?_eq_some {s : String} :
    ofVertex? s = some m ↔ Spells (Text.upper (Text.trim s.toList)) m := by
  generalize hu : Text.upper (Text.trim s.toList) = u
  rw [ofVertex?, hu]
  constructor
  · intro h
    split at h
    · rename_i hpass
      cases h
      exact hpass ▸ .pass
    · split at h
      · rename_i hresign
        cases h
        exact hresign ▸ .resign
      · exact spells_of_ofPointVertex? h
  · intro h
    cases h with
    | pass => rfl
    | resign => rfl
    | stone vertex column place =>
      rw [if_neg (vertex.ne_cons (by decide)), if_neg (vertex.ne_cons (by decide))]
      exact ofPointVertex?_of_vertex vertex column place

/-! ## Writing -/

/-- A spelling consists of basic letters and digits. -/
theorem Spells.all_isPlain (h : Spells u m) : u.all Text.isPlain = true := by
  cases h with
  | pass => decide
  | resign => decide
  | stone vertex =>
    obtain ⟨digits, rfl, hnumeral⟩ := vertex.numeral
    have hletters : columnLetters.all Text.isPlain = true := by decide
    rw [List.all_cons, List.all_eq_true.mp hletters _ vertex.mem, Bool.true_and, List.all_eq_true]
    intro c hc
    rw [Text.isPlain, hnumeral.digits c hc, Bool.or_true]

theorem toList_pointVertex (p : Point) : ∃ letter, columnLetters[p.column]? = some letter ∧
    (pointVertex p).toList = letter :: (toString (side - p.row)).toList := by
  have hcolumn : p.column < columnLetters.length := p.column_lt
  refine ⟨columnLetters[p.column], List.getElem?_eq_getElem hcolumn, ?_⟩
  simp [pointVertex, List.getD_eq_getElem?_getD, List.getElem?_eq_getElem hcolumn]

/-- The text of a move spells it in upper case. -/
theorem spells_vertex (m : Move) : Spells (Text.upper m.vertex.toList) m := by
  cases m with
  | pass =>
    have hupper : Text.upper "pass".toList = ['P', 'A', 'S', 'S'] := by decide
    exact hupper ▸ .pass
  | resign =>
    have hupper : Text.upper "resign".toList = ['R', 'E', 'S', 'I', 'G', 'N'] := by decide
    exact hupper ▸ .resign
  | stone p =>
    have hrow := p.row_lt
    obtain ⟨letter, hletter, hlist⟩ := toList_pointVertex p
    have hvertex : IsVertex (letter :: (toString (side - p.row)).toList) letter (side - p.row) :=
      ⟨List.mem_of_getElem? hletter, ⟨_, rfl, Text.isNumeral_toString _⟩, by omega⟩
    have hplace : p.row + (side - p.row) = side := Nat.add_sub_cancel' hrow.le
    have hspells := Spells.stone hvertex hletter hplace
    rw [vertex, hlist, Text.upper_eq_self hspells.all_isPlain]
    exact hspells

theorem isAlphanum_vertex (m : Move) : ∀ c ∈ m.vertex.toList, c.isAlphanum = true := by
  cases m with
  | pass => exact List.all_eq_true.mp rfl
  | resign => exact List.all_eq_true.mp rfl
  | stone p =>
    obtain ⟨letter, hletter, hlist⟩ := toList_pointVertex p
    have hletters : columnLetters.all Char.isAlphanum = true := by decide
    rw [vertex, hlist]
    intro c hc
    rcases List.mem_cons.mp hc with rfl | hc
    · exact List.all_eq_true.mp hletters c (List.mem_of_getElem? hletter)
    · rw [Char.isAlphanum, Text.isDigit_of_mem_toString hc, Bool.or_true]

theorem isTrimmed_of_isAlphanum {body : List Char} (h : ∀ c ∈ body, c.isAlphanum = true) :
    Text.IsTrimmed body :=
  ⟨fun c hc => Text.not_blank_of_isAlphanum (h c (List.mem_of_mem_head? hc)),
    fun c hc => Text.not_blank_of_isAlphanum (h c (List.mem_of_mem_getLast? hc))⟩

/-! ## Any way to write upper case -/

variable {capital : Char → List Char}

/-- What a text spells does not depend on how it is written in upper case. -/
theorem spells_flatMap (h : Text.IsUpperCase capital) {s : List Char} :
    Spells (s.flatMap capital) m ↔ Spells (Text.upper s) m := by
  constructor
  · intro hs
    rwa [(h.flatMap_eq_iff hs.all_isPlain).mp rfl]
  · intro hs
    rwa [(h.flatMap_eq_iff hs.all_isPlain).mpr rfl]

/-- A text stands for the move that it spells in upper case, without the blanks around it. All other
texts stand for no move: the two words and the vertices are all that can be spelled. The text of a
move stands for it, also with letters in the other case and with blanks around it. -/
theorem vertices_exact (h : Text.IsUpperCase capital) (s : String) (u : List Char)
    (hu : u = (Text.trim s.toList).flatMap capital) :
    (∀ m, ofVertex? s = some m ↔ Spells u m) ∧
    (ofVertex? s = none ↔
      u ≠ ['P', 'A', 'S', 'S'] ∧ u ≠ ['R', 'E', 'S', 'I', 'G', 'N'] ∧
        ∀ letter row, ¬ IsVertex u letter row) ∧
    ∀ (m : Move) (before body after : List Char), (∀ c ∈ before, Text.isBlank c = true) →
      (∀ c ∈ after, Text.isBlank c = true) →
      body.map Char.toLower = m.vertex.toList.map Char.toLower →
      ofVertex? (String.ofList (before ++ body ++ after)) = some m := by
  subst hu
  have hsome (m : Move) : ofVertex? s = some m ↔ Spells ((Text.trim s.toList).flatMap capital) m :=
    ofVertex?_eq_some.trans (spells_flatMap h).symm
  refine ⟨hsome, ?_, fun m before body after hbefore hafter hcase => ?_⟩
  · rw [Option.eq_none_iff_forall_ne_some]
    simp only [ne_eq, hsome]
    constructor
    · intro hno
      refine ⟨fun heq => hno .pass (heq ▸ .pass), fun heq => hno .resign (heq ▸ .resign), ?_⟩
      intro letter row hvertex
      obtain ⟨p, hp⟩ := hvertex.exists_point
      exact hno _ hp
    · rintro ⟨hpass, hresign, hvertex⟩ m hm
      generalize (Text.trim s.toList).flatMap capital = u at *
      cases hm with
      | pass => exact hpass rfl
      | resign => exact hresign rfl
      | stone vertex => exact hvertex _ _ vertex
  · have hsame : Text.SameButCase body m.vertex.toList := ⟨hcase, isAlphanum_vertex m⟩
    have htrim := (isTrimmed_of_isAlphanum hsame.alphanum_left).trim_pad hbefore hafter
    rw [ofVertex?_eq_some, String.toList_ofList, htrim, hsame.upper_eq]
    exact spells_vertex m

theorem vertices_exact_leading_zeros : Text.IsUpperCase Text.upperChar ∧
    ['J', '0', '0', '7'] = (Text.trim "\t j007\u3000".toList).flatMap Text.upperChar ∧
    ofVertex? "\t j007\u3000" = some (.stone 26) := by
  have hvertex : IsVertex ['J', '0', '0', '7'] 'J' 7 :=
    ⟨by decide, ⟨_, rfl, by decide, List.all_eq_true.mp rfl, by decide⟩, by decide⟩
  have hu : ['J', '0', '0', '7'] =
      (Text.trim "\t j007\u3000".toList).flatMap Text.upperChar := by decide +kernel
  have hspells := (vertices_exact Text.isUpperCase_upperChar _ _ hu).1 (.stone 26)
  exact ⟨Text.isUpperCase_upperChar, hu, hspells.mpr (.stone hvertex rfl rfl)⟩

end Goban.Move
