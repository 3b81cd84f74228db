import Goban.Json.Reader

/-!
# What is written as JSON is read back

Every character of a string is written so that it is read back by itself (`readQuoted_escapeChar`),
and none of what is written is a control character. A value is read back with whatever follows it
(`IsProper.isRead`), unless it is a number that the next character would go on with; so a
text holds one value, the one that it is written for (`IsProper.parse?_render`), and no line break
(`IsProper.printable`).
-/

namespace Goban.Json

variable {c d : Char} {s rest : List Char} {fuel : Nat} {j : Json} {items : List Json}
  {fields : List (String × Json)}

/-! ## Strings -/

theorem readQuoted_plain (hquote : c ≠ '"') (hslash : c ≠ '\\') (s : List Char) :
    readQuoted (c :: s) = (readQuoted s).map fun p => (c :: p.1, p.2) := by
  rw [readQuoted]
  · cases readQuoted s <;> rfl
  · exact hquote
  · simp [hslash]
  · simp [hslash]
  · simp [hslash]

theorem readQuoted_short (hchar : unescape? c = some d) (s : List Char) :
    readQuoted ('\\' :: c :: s) = (readQuoted s).map fun p => (d :: p.1, p.2) := by
  have hunit : c ≠ 'u' := by
    rintro rfl
    cases hchar
  rw [readQuoted]
  · rw [hchar]
    cases readQuoted s <;> rfl
  · simp [hunit]
  · simp [hunit]

/-- A unit below the surrogates stands for a character by itself, whatever comes next. -/
theorem readQuoted_unit {u v w x : Char} {n : Nat} (hunit : hexUnit? u v w x = some n)
    (hlow : n < 0xd800) (s : List Char) :
    readQuoted ('\\' :: 'u' :: u :: v :: w :: x :: s) =
      (readQuoted s).map fun p => (Char.ofNat n :: p.1, p.2) := by
  have hchar : ofUnits? n none = some (Char.ofNat n) := if_pos (.inl hlow)
  by_cases hpair : ∃ e f g h rest, s = '\\' :: 'u' :: e :: f :: g :: h :: rest
  · -- A second unit follows, which the first one does not belong to.
    obtain ⟨e, f, g, h, rest, rfl⟩ := hpair
    have hsingle : ¬(0xd800 ≤ n ∧ n < 0xdc00) := by omega
    rw [readQuoted]
    simp only [hunit, Option.bind_eq_bind, Option.bind_some, if_neg hsingle, hchar]
    cases readQuoted _ <;> rfl
  · rw [readQuoted]
    · simp only [hunit, Option.bind_eq_bind, Option.bind_some, hchar]
      cases readQuoted s <;> rfl
    · intro e f g h rest heq
      exact hpair ⟨e, f, g, h, rest, heq⟩

theorem hexUnit?_hexDigit : ∀ n < 0x20,
    hexUnit? '0' '0' (hexDigit (n / 16)) (hexDigit (n % 16)) = some n := by
  decide

/-- Each character is read back by itself. -/
theorem readQuoted_escapeChar (c : Char) (s : List Char) :
    readQuoted (escapeChar c ++ s) = (readQuoted s).map fun p => (c :: p.1, p.2) := by
  unfold escapeChar
  split
  iterate 7 exact readQuoted_short rfl s
  rename_i hquote hslash _ _ _ _ _
  split
  · rename_i hlow
    have hunit := readQuoted_unit (hexUnit?_hexDigit c.toNat hlow) (by omega) s
    rwa [Char.ofNat_toNat] at hunit
  · exact readQuoted_plain hquote hslash s

theorem readQuoted_quoted (s rest : List Char) :
    readQuoted (s.flatMap escapeChar ++ '"' :: rest) = some (s, rest) := by
  induction s with
  | nil => rfl
  | cons c s ih =>
    rw [List.flatMap_cons, List.append_assoc, readQuoted_escapeChar, ih, Option.map_some]

/-! ## Values -/

/-- A text that a number may be written as. -/
def IsNumber (text : String) : Prop := text.toList ≠ [] ∧ ∀ c ∈ text.toList, isNumeric c = true

/-- A value whose numbers are written as numbers. -/
inductive IsProper : Json → Prop where
  | null : IsProper .null
  | bool (b : Bool) : IsProper (.bool b)
  | number {text : String} (h : IsNumber text) : IsProper (.number text)
  | text (s : String) : IsProper (.text s)
  | list {items : List Json} (h : ∀ j ∈ items, IsProper j) : IsProper (.list items)
  | object {fields : List (String × Json)} (h : ∀ f ∈ fields, IsProper f.2) :
      IsProper (.object fields)

/-- What may follow a value: nothing that a number would go on with. -/
def Stops (rest : List Char) : Prop := ∀ c ∈ rest.head?, isNumeric c = false

theorem skipBlanks_cons (h : (c == ' ' || c == '\n' || c == '\t' || c == '\r') = false)
    (s : List Char) : skipBlanks (c :: s) = c :: s := by
  unfold skipBlanks
  rw [List.dropWhile_cons_of_neg (by rw [h]; exact Bool.false_ne_true)]

/-- The first character of a value is neither blank nor the end of a list. -/
def Starts (s : List Char) : Prop :=
  ∃ c rest, s = c :: rest ∧ (c == ' ' || c == '\n' || c == '\t' || c == '\r') = false ∧ c ≠ ']'

/-- A value is read back whatever follows it, with fuel for its characters. -/
def IsRead (j : Json) : Prop :=
  Starts j.chars ∧ ∀ fuel rest, j.chars.length ≤ fuel → Stops rest →
    readValue fuel (j.chars ++ rest) = some (j, rest)

theorem Starts.skipBlanks (h : Starts s) (rest : List Char) :
    skipBlanks (s ++ rest) = s ++ rest := by
  obtain ⟨c, s, rfl, hblank, -⟩ := h
  exact skipBlanks_cons hblank (s ++ rest)

/-- A value has characters, so the fuel for them is not zero. -/
theorem IsRead.of_succ (hstarts : Starts j.chars)
    (hread : ∀ fuel rest, j.chars.length ≤ fuel + 1 → Stops rest →
      readValue (fuel + 1) (j.chars ++ rest) = some (j, rest)) : IsRead j := by
  refine ⟨hstarts, fun fuel rest hfuel hrest => ?_⟩
  obtain ⟨c, s, hchars, -⟩ := hstarts
  cases fuel with
  | zero =>
    rw [hchars] at hfuel
    cases hfuel
  | succ fuel => exact hread fuel rest hfuel hrest

theorem stops_cons (h : isNumeric c = false) (rest : List Char) : Stops (c :: rest) := by
  intro d hd
  cases hd
  exact h

theorem takeWhile_number {text rest : List Char} (h : ∀ c ∈ text, isNumeric c = true)
    (hrest : Stops rest) : (text ++ rest).takeWhile isNumeric = text ∧
      (text ++ rest).dropWhile isNumeric = rest := by
  rw [List.takeWhile_append_of_pos h, List.dropWhile_append_of_pos h]
  cases rest with
  | nil => exact ⟨List.append_nil _, rfl⟩
  | cons c rest =>
    have hc : ¬isNumeric c = true := by simp [hrest c rfl]
    rw [List.takeWhile_cons_of_neg hc, List.dropWhile_cons_of_neg hc]
    exact ⟨List.append_nil _, rfl⟩

theorem starts_number (h : isNumeric c = true) (s : List Char) : Starts (c :: s) := by
  refine ⟨c, s, rfl, ?_, ?_⟩
  · refine Bool.eq_false_iff.mpr fun hblank => ?_
    simp only [Bool.or_eq_true, beq_iff_eq] at hblank
    rcases hblank with ((rfl | rfl) | rfl) | rfl <;> cases h
  · rintro rfl
    cases h

theorem readValue_number (h : isNumeric c = true) (fuel : Nat) (s : List Char) :
    readValue (fuel + 1) (c :: s) =
      some (.number (String.ofList ((c :: s).takeWhile isNumeric)),
        (c :: s).dropWhile isNumeric) := by
  have hskip : skipBlanks (c :: s) = c :: s := by
    have hstarts := (starts_number h s).skipBlanks []
    rwa [List.append_nil] at hstarts
  rw [readValue, hskip]
  split
  iterate 6
    rename_i heq
    cases heq
    cases h
  rw [List.takeWhile_cons_of_pos h]
  rfl

/-- A number is read up to the first character that is not in it. -/
theorem isRead_number {text : String} (h : IsNumber text) : IsRead (.number text) := by
  obtain ⟨hne, hnumeric⟩ := h
  obtain ⟨c, cs, hcs⟩ := List.exists_cons_of_ne_nil hne
  have hc : isNumeric c = true := hnumeric c (hcs ▸ List.mem_cons_self)
  have hchars : (Json.number text).chars = c :: cs := hcs
  refine .of_succ (hchars ▸ starts_number hc cs) fun fuel rest _ hrest => ?_
  obtain ⟨htake, hdrop⟩ := takeWhile_number (hcs ▸ hnumeric) hrest
  rw [hchars, List.cons_append, readValue_number hc, ← List.cons_append, htake, hdrop, ← hcs,
    String.ofList_toList]

theorem isRead_word {c : Char} {s : List Char} (hchars : j.chars = c :: s)
    (hstarts : Starts (c :: s))
    (hread : ∀ fuel rest, readValue (fuel + 1) (c :: (s ++ rest)) = some (j, rest)) : IsRead j := by
  refine .of_succ (hchars ▸ hstarts) fun fuel rest _ _ => ?_
  rw [hchars]
  exact hread fuel rest

theorem isRead_text (t : String) : IsRead (.text t) := by
  refine .of_succ ⟨'"', _, rfl, by decide, by decide⟩ fun fuel rest _ _ => ?_
  have hchars : (Json.text t).chars ++ rest =
      '"' :: (t.toList.flatMap escapeChar ++ '"' :: rest) := by
    simp [chars, quote]
  rw [hchars, readValue, skipBlanks_cons rfl]
  simp only [readQuoted_quoted, Option.bind_eq_bind, Option.bind_some, String.ofList_toList]

/-- Values with commas between them are read back up to the end of their list. -/
theorem readItems_itemChars (hread : ∀ j ∈ items, IsRead j) (hne : items ≠ [])
    (hfuel : (itemChars items).length < fuel) (rest : List Char) :
    readItems fuel (itemChars items ++ ']' :: rest) = some (items, rest) := by
  induction items generalizing fuel with
  | nil => exact absurd rfl hne
  | cons j items ih =>
    obtain ⟨fuel, rfl⟩ := Nat.exists_eq_succ_of_ne_zero (Nat.ne_zero_of_lt hfuel)
    obtain ⟨-, hj⟩ := hread j List.mem_cons_self
    cases items with
    | nil =>
      have hlength : j.chars.length ≤ fuel := Nat.le_of_lt_succ hfuel
      rw [itemChars, readItems, hj fuel (']' :: rest) hlength (stops_cons rfl rest)]
      rfl
    | cons j' items =>
      rw [itemChars, List.length_append, List.length_cons] at hfuel
      · rw [itemChars, List.append_assoc, List.cons_append, readItems,
          hj fuel _ (by omega) (stops_cons rfl _)]
        · have hitems := @ih fuel (fun j hj => hread j (List.mem_cons_of_mem _ hj)) nofun (by omega)
          simp only [Option.bind_eq_bind, Option.bind_some]
          rw [skipBlanks_cons rfl]
          simp only [hitems, Option.bind_some]
        · nofun
      · nofun

theorem quote_append (t : String) (s : List Char) :
    quote t ++ s = '"' :: (t.toList.flatMap escapeChar ++ '"' :: s) := by
  simp [quote]

/-- What is read of a field, and then of what follows it. -/
theorem readFields_succ (fuel : Nat) (name : String) (s : List Char) :
    readFields (fuel + 1) (quote name ++ ':' :: s) = (do
      let (value, rest) ← readValue fuel s
      match skipBlanks rest with
      | '\x7d' :: rest => some ([(name, value)], rest)
      | ',' :: rest =>
        let (fields, rest) ← readFields fuel rest
        some ((name, value) :: fields, rest)
      | _ => none) := by
  rw [quote_append, readFields, skipBlanks_cons rfl]
  simp only [readQuoted_quoted, Option.bind_eq_bind, Option.bind_some, String.ofList_toList]
  rw [skipBlanks_cons rfl]
  rfl

/-- Fields with commas between them are read back up to the end of their object. -/
theorem readFields_fieldChars (hread : ∀ f ∈ fields, IsRead f.2) (hne : fields ≠ [])
    (hfuel : (fieldChars fields).length < fuel) (rest : List Char) :
    readFields fuel (fieldChars fields ++ '\x7d' :: rest) = some (fields, rest) := by
  induction fields generalizing fuel with
  | nil => exact absurd rfl hne
  | cons f fields ih =>
    obtain ⟨fuel, rfl⟩ := Nat.exists_eq_succ_of_ne_zero (Nat.ne_zero_of_lt hfuel)
    obtain ⟨name, value⟩ := f
    obtain ⟨-, hf⟩ : IsRead value := hread (name, value) List.mem_cons_self
    cases fields with
    | nil =>
      rw [fieldChars, List.length_append, List.length_cons] at hfuel
      rw [fieldChars, List.append_assoc, List.cons_append, readFields_succ,
        hf fuel ('\x7d' :: rest) (by omega) (stops_cons rfl rest)]
      rfl
    | cons f' fields =>
      rw [fieldChars, List.length_append, List.length_append, List.length_cons,
        List.length_cons] at hfuel
      · rw [fieldChars, List.append_assoc, List.append_assoc, List.cons_append, readFields_succ,
          List.cons_append, hf fuel _ (by omega) (stops_cons rfl _)]
        · have hfields := @ih fuel (fun f hf => hread f (List.mem_cons_of_mem _ hf)) nofun (by omega)
          simp only [Option.bind_eq_bind, Option.bind_some]
          rw [skipBlanks_cons rfl]
          simp only [hfields, Option.bind_some]
        · nofun
      · nofun

theorem exists_fieldChars (f : String × Json) (fields : List (String × Json)) :
    ∃ s, fieldChars (f :: fields) = '"' :: s := by
  cases fields with
  | nil => exact ⟨_, rfl⟩
  | cons f' fields => exact ⟨_, rfl⟩

theorem starts_itemChars (hread : ∀ j ∈ items, IsRead j) (hne : items ≠ []) :
    Starts (itemChars items) := by
  match items, hne with
  | [j], _ => exact (hread j List.mem_cons_self).1
  | j :: j' :: items, _ =>
    obtain ⟨c, s, hchars, hc⟩ := (hread j List.mem_cons_self).1
    refine ⟨c, s ++ ',' :: itemChars (j' :: items), ?_, hc⟩
    rw [itemChars, hchars]
    · rfl
    · nofun

theorem isRead_list (hread : ∀ j ∈ items, IsRead j) : IsRead (.list items) := by
  refine .of_succ ⟨'[', itemChars items ++ [']'], rfl, by decide, by decide⟩ ?_
  intro fuel rest hfuel _
  have hchars : (Json.list items).chars ++ rest = '[' :: (itemChars items ++ ']' :: rest) := by
    simp [chars]
  have hlength : (itemChars items).length < fuel := by
    simp only [chars, List.length_append, List.length_cons, List.length_nil] at hfuel
    omega
  rw [hchars, readValue]
  by_cases hne : items = []
  · subst hne
    rfl
  · have hstarts := starts_itemChars hread hne
    rw [skipBlanks_cons rfl]
    simp only
    rw [hstarts.skipBlanks]
    split
    · rename_i heq
      obtain ⟨c, s, hs, -, hc⟩ := hstarts
      rw [hs] at heq
      cases heq
      exact absurd rfl hc
    · rw [readItems_itemChars hread hne hlength rest]
      rfl

theorem isRead_object (hread : ∀ f ∈ fields, IsRead f.2) : IsRead (.object fields) := by
  refine .of_succ ⟨'\x7b', fieldChars fields ++ ['\x7d'], rfl, by decide, by decide⟩ ?_
  intro fuel rest hfuel _
  have hchars : (Json.object fields).chars ++ rest =
      '\x7b' :: (fieldChars fields ++ '\x7d' :: rest) := by
    simp [chars]
  have hlength : (fieldChars fields).length < fuel := by
    simp only [chars, List.length_append, List.length_cons, List.length_nil] at hfuel
    omega
  rw [hchars, readValue]
  cases fields with
  | nil => rfl
  | cons f fields =>
    obtain ⟨s, hs⟩ := exists_fieldChars f fields
    rw [skipBlanks_cons rfl]
    have hfields := readFields_fieldChars hread nofun hlength rest
    rw [hs, List.cons_append] at hfields
    simp only [hs, List.cons_append]
    rw [skipBlanks_cons rfl]
    split
    · rename_i heq
      exact absurd (List.cons.inj heq).1 (by decide)
    · rw [hfields]
      rfl

/-- A value is read back whatever follows it. -/
theorem IsProper.isRead (h : j.IsProper) : j.IsRead := by
  induction h with
  | null => exact isRead_word rfl ⟨_, _, rfl, rfl, by decide⟩ fun _ _ => by rw [readValue]; rfl
  | bool b =>
    cases b with
    | true => exact isRead_word rfl ⟨_, _, rfl, rfl, by decide⟩ fun _ _ => by rw [readValue]; rfl
    | false => exact isRead_word rfl ⟨_, _, rfl, rfl, by decide⟩ fun _ _ => by rw [readValue]; rfl
  | number h => exact isRead_number h
  | text s => exact isRead_text s
  | list _ ih => exact isRead_list ih
  | object _ ih => exact isRead_object ih

/-- A text holds the value that it is written for, and no other. -/
theorem IsProper.parse?_render (h : j.IsProper) : parse? j.render = some j := by
  have hread : readValue (j.chars.length + 1) j.chars = some (j, []) := by
    have hread := h.isRead.2 (j.chars.length + 1) [] (Nat.le_succ _) nofun
    rwa [List.append_nil] at hread
  unfold parse? render
  simp only [String.toList_ofList]
  rw [hread]
  rfl

/-! ## Lines -/

/-- Characters that are no control characters. -/
def Printable (s : List Char) : Prop := ∀ c ∈ s, 0x20 ≤ c.toNat

theorem Printable.of_all (h : (s.all fun c => decide (0x20 ≤ c.toNat)) = true) : Printable s :=
  fun c hc => of_decide_eq_true (List.all_eq_true.mp h c hc)

theorem Printable.append {s t : List Char} (hs : Printable s) (ht : Printable t) :
    Printable (s ++ t) :=
  List.forall_mem_append.mpr ⟨hs, ht⟩

theorem Printable.cons (hc : 0x20 ≤ c.toNat) (hs : Printable s) : Printable (c :: s) :=
  List.forall_mem_cons.mpr ⟨hc, hs⟩

/-- A control character is written as others that are none. -/
theorem printable_escapeChar (c : Char) : Printable (escapeChar c) := by
  have hhex : ∀ n < 16, 0x20 ≤ (hexDigit n).toNat := by decide
  unfold escapeChar
  split
  iterate 7 exact .of_all rfl
  split
  · rename_i hlow
    have hhigh := hhex (c.toNat / 16) (by omega)
    have hlast := hhex (c.toNat % 16) (by omega)
    exact Printable.append (s := ['\\', 'u', '0', '0']) (.of_all rfl) (.cons hhigh (.cons hlast nofun))
  · rename_i hhigh
    exact .cons (Nat.le_of_not_lt hhigh) nofun

theorem printable_quote (s : String) : Printable (quote s) := by
  have hchars : Printable (s.toList.flatMap escapeChar) := by
    intro c hc
    obtain ⟨d, -, hd⟩ := List.mem_flatMap.mp hc
    exact printable_escapeChar d c hd
  exact .append (.cons (by decide) hchars) (.of_all rfl)

theorem printable_itemChars (h : ∀ j ∈ items, Printable j.chars) : Printable (itemChars items) := by
  induction items with
  | nil => nofun
  | cons j items ih =>
    obtain ⟨hj, hitems⟩ := List.forall_mem_cons.mp h
    cases items with
    | nil => exact hj
    | cons j' items =>
      rw [itemChars]
      · exact hj.append (.cons (by decide) (ih hitems))
      · nofun

theorem printable_fieldChars (h : ∀ f ∈ fields, Printable f.2.chars) :
    Printable (fieldChars fields) := by
  induction fields with
  | nil => nofun
  | cons f fields ih =>
    obtain ⟨hf, hfields⟩ := List.forall_mem_cons.mp h
    have hfield : Printable (quote f.1 ++ ':' :: f.2.chars) :=
      .append (printable_quote f.1) (.cons (by decide) hf)
    cases fields with
    | nil => exact hfield
    | cons f' fields =>
      rw [fieldChars]
      · exact hfield.append (.cons (by decide) (ih hfields))
      · nofun

theorem printable_number (hc : isNumeric c = true) : 0x20 ≤ c.toNat := by
  have hcontrol : ∀ n < 0x20, isNumeric (Char.ofNat n) = false := by decide
  refine Nat.le_of_not_lt fun hlow => ?_
  have hc' := hcontrol c.toNat hlow
  rw [Char.ofNat_toNat, hc] at hc'
  cases hc'

/-- A value is written without control characters, so on one line. -/
theorem IsProper.printable (h : j.IsProper) : Printable j.chars := by
  induction h with
  | null => exact .of_all rfl
  | bool b => cases b <;> exact .of_all rfl
  | number h => exact fun c hc => printable_number (h.2 c hc)
  | text s => exact printable_quote s
  | list _ ih => exact .cons (by decide) (.append (printable_itemChars ih) (.of_all rfl))
  | object _ ih => exact .cons (by decide) (.append (printable_fieldChars ih) (.of_all rfl))

end Goban.Json
