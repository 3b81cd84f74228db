import Goban.Proofs.Files.Places
import Goban.Proofs.Json.RoundTrip
import Goban.Proofs.Text.Numerals
import Goban.Proofs.Text.Parts

/-!
# Tables are read back row by row

A game is entered in a table by adding the line of its row to the file of the table (`TableEntry`).
Whatever stands in the strings of a row, its line holds no other line break than its end and is read
back as the row (`GameRow.read?_text`). So a file to which entries were added holds the rows it held
before, and behind them those of the entries for its place, in their order
(`TableEntry.readable_of_writeAll`).
-/

namespace Goban

/-! ## Reading rows -/

namespace Json

/-- The text that a value is. -/
def text? : Json → Option String
  | .text s => some s
  | _ => none

/-- The natural number that a value is. -/
def nat? : Json → Option Nat
  | .number s => Text.natOfDigits? s.toList
  | _ => none

theorem isProper_nat (n : Nat) : (Json.nat n).IsProper := by
  refine .number ⟨Text.toList_toString_ne_nil n, fun c hc => ?_⟩
  unfold isNumeric
  rw [Text.isDigit_of_mem_toString hc]
  rfl

@[simp]
theorem nat?_nat (n : Nat) : (Json.nat n).nat? = some n :=
  Text.natOfDigits?_eq_some.mpr (Text.isNumeral_toString n)

end Json

namespace GameRow

variable {r : GameRow}

/-- The row that a value is for. -/
def ofJson? (j : Json) : Option GameRow := do
  some {
    black := ← (← j.get? "black").text?
    white := ← (← j.get? "white").text?
    result := ← (← j.get? "result").text?
    length := ← (← j.get? "length").nat?
    recordName := ← (← j.get? "sgf").text?
    tag := ← (← j.get? "tag").text?
    timestamp := ← (← j.get? "timestamp").nat? }

/-- The row that a text is written for. -/
def read? (text : String) : Option GameRow := Json.parse? text >>= ofJson?

/-- The rows that lines are written for. -/
def readLines? (ls : List (List Char)) : Option (List GameRow) :=
  ls.mapM fun line => read? (String.ofList line)

/-- The rows of a text of lines. -/
def readAll? (text : String) : Option (List GameRow) := (Text.lines? text.toList).bind readLines?

theorem ofJson?_toJson (r : GameRow) : ofJson? r.toJson = some r := by
  simp [ofJson?, toJson, Json.get?, Json.text?]

theorem isProper_toJson (r : GameRow) : r.toJson.IsProper := by
  refine .object ?_
  simp only [List.forall_mem_cons, List.not_mem_nil, false_imp_iff, implies_true, and_true]
  exact ⟨.text _, .text _, .text _, Json.isProper_nat _, .text _, .text _, Json.isProper_nat _⟩

/-- A row is written on one line. -/
theorem notMem_toJson (r : GameRow) : '\n' ∉ r.toJson.chars := fun h =>
  absurd (r.isProper_toJson.printable '\n' h) (by decide)

theorem read?_toJson (r : GameRow) : read? r.toJson.render = some r := by
  rw [read?, r.isProper_toJson.parse?_render]
  exact ofJson?_toJson r

theorem toList_line (r : GameRow) : r.line.toList = r.toJson.chars ++ ['\n'] := by
  simp [line, Json.render]

theorem readAll?_append {text : String} {rows : List GameRow} (h : readAll? text = some rows)
    (more : String) : readAll? (text ++ more) = (readAll? more).map (rows ++ ·) := by
  obtain ⟨ls, hls, hrows⟩ := Option.bind_eq_some_iff.mp h
  rw [readAll?, readAll?, String.toList_append, Text.lines?_append hls]
  cases Text.lines? more.toList with
  | none => rfl
  | some ls' =>
    show readLines? (ls ++ ls') = (readLines? ls').map (rows ++ ·)
    unfold readLines? at hrows ⊢
    rw [List.mapM_append, hrows]
    cases ls'.mapM fun line => read? (String.ofList line) <;> rfl

theorem readAll?_line (r : GameRow) : readAll? r.line = some [r] := by
  have hread : read? (String.ofList r.toJson.chars) = some r := r.read?_toJson
  rw [readAll?, toList_line, Text.lines?_line r.notMem_toJson, Option.bind_some, readLines?,
    List.mapM_cons, List.mapM_nil, hread]
  rfl

/-- Lines behind rows are read as the rows that they are for. -/
theorem readAll?_join {text : String} {rows : List GameRow} (h : readAll? text = some rows)
    (more : List GameRow) :
    readAll? (text ++ String.join (more.map line)) = some (rows ++ more) := by
  induction more generalizing text rows with
  | nil => simpa using h
  | cons r more ih =>
    have hline : readAll? (text ++ r.line) = some (rows ++ [r]) := by
      rw [readAll?_append h, readAll?_line]
      rfl
    rw [List.map_cons, String.join_cons, ← String.append_assoc, ih hline, List.append_assoc]
    rfl

end GameRow

/-! ## Entering games -/

theorem Filing.run_write (o : Output) (f : Files) :
    (Filing.write o).run f = match o.perform f with
      | .ok g => (.ok (), g)
      | .error e => (.error (o.failure e), f) := by
  show (match o.perform f with
    | .ok files => (set files : Filing Unit)
    | .error e => throw (o.failure e)).run f = _
  cases o.perform f <;> rfl

/-- The first output is written before the others are. -/
theorem Filing.run_writeAll_cons (o : Output) (os : List Output) (f : Files) :
    (Filing.writeAll (o :: os)).run f = match o.perform f with
      | .ok g => (Filing.writeAll os).run g
      | .error e => (.error (o.failure e), f) := by
  have hbind : (Filing.writeAll (o :: os)).run f =
      (fun p => ExceptT.bindCont (fun _ => Filing.writeAll os) p.1 p.2) ((Filing.write o).run f) :=
    rfl
  rw [hbind, Filing.run_write]
  cases o.perform f <;> rfl

/-- A file after lines were added to it; without a line there need not be one. -/
def extend (old : Option String) (ls : List String) : Option String :=
  if ls.isEmpty then old else some (old.getD "" ++ String.join ls)

theorem extend_cons (old : Option String) (l : String) (ls : List String) :
    extend old (l :: ls) = extend (some (old.getD "" ++ l)) ls := by
  cases ls with
  | nil => simp [extend]
  | cons l' ls => simp [extend, String.append_assoc]

theorem getD_extend (old : Option String) (ls : List String) :
    (extend old ls).getD "" = old.getD "" ++ String.join ls := by
  cases ls with
  | nil => simp [extend]
  | cons l ls => rfl

/-- The rows in the file at a place; none if something else stands there. -/
def Files.rows? (f : Files) (place : Place) : Option (List GameRow) :=
  GameRow.readAll? ((f.text? place).getD "")

/-- A game that is entered in a table, with the name of its record, a tag and the time. -/
structure TableEntry where
  spec : TableSpec
  game : Game
  recordName : String
  tag : String
  seconds : Nat

namespace TableEntry

/-- The row of an entry. -/
def row (e : TableEntry) : GameRow := .ofGame e.game e.recordName e.tag e.seconds

/-- An entry as it is written to a table below a root directory. -/
def output (root : String) (e : TableEntry) : Output :=
  .rows e.recordName (e.spec.path root) e.row.line

/-- The entries for the file at a place, in their order. -/
def leadingTo (f : Files) (root : String) (place : Place) (entries : List TableEntry) :
    List TableEntry :=
  entries.filter fun e => f.resolve (e.spec.path root) == place

variable {root : String} {entries : List TableEntry} {f f' : Files}

theorem leadingTo_cons (f : Files) (root : String) (place : Place) (e : TableEntry)
    (entries : List TableEntry) : leadingTo f root place (e :: entries) =
      if f.resolve (e.spec.path root) = place then e :: leadingTo f root place entries
      else leadingTo f root place entries := by
  rw [leadingTo, List.filter_cons]
  simp only [beq_iff_eq]
  rfl

/-- Each file grows by the lines of the entries for its place, and by nothing else. -/
theorem text?_of_writeAll
    (done : (Filing.writeAll (entries.map (output root))).run f = (.ok (), f'))
    (place : Place) :
    f'.text? place = extend (f.text? place)
      ((leadingTo f root place entries).map fun e => e.row.line) := by
  induction entries generalizing f with
  | nil =>
    cases done
    rfl
  | cons e entries ih =>
    rw [List.map_cons, Filing.run_writeAll_cons] at done
    split at done
    case h_2 => cases done
    rename_i g hwrite
    have hgrows := Files.grows_of_rows hwrite
    have hleading : leadingTo g root place entries = leadingTo f root place entries := by
      simp only [leadingTo, Files.resolve, Files.start, hgrows.current]
    rw [ih done, hleading, leadingTo_cons]
    split
    · rename_i hplace
      rw [List.map_cons, extend_cons, ← hplace, hgrows.here]
    · rename_i hplace
      rw [hgrows.elsewhere place (Ne.symm hplace)]

/-- Whatever stands in its strings, an entry is written as one line that says what it says. -/
theorem exists_line (e : TableEntry) : ∃ line : String, e.row.line = line ++ "\n" ∧
    '\n' ∉ line.toList ∧ Json.parse? line = some (.object [
      ("black", .text e.game.blackName),
      ("white", .text e.game.whiteName),
      ("result", .text e.game.resultText),
      ("length", .nat e.game.turns.length),
      ("sgf", .text e.recordName),
      ("tag", .text e.tag),
      ("timestamp", .nat e.seconds)]) := by
  refine ⟨e.row.toJson.render, rfl, ?_, e.row.isProper_toJson.parse?_render⟩
  rw [Json.render, String.toList_ofList]
  exact e.row.notMem_toJson

theorem rows?_of_writeAll
    (done : (Filing.writeAll (entries.map (output root))).run f = (.ok (), f'))
    {place : Place} {before : List GameRow} (hbefore : f.rows? place = some before) :
    f'.rows? place = some (before ++ (leadingTo f root place entries).map row) := by
  rw [Files.rows?, text?_of_writeAll done, getD_extend]
  have hlines : (leadingTo f root place entries).map (fun e => e.row.line) =
      ((leadingTo f root place entries).map row).map GameRow.line := by
    rw [List.map_map]
    rfl
  rw [hlines]
  exact GameRow.readAll?_join hbefore _

/-- Tables keep one row of each game, and it can be read back. When games were entered one after the
other, each file holds what it held before and, behind it, a line for each of the entries that lead
to it, in their order; a line holds no other line break than its end and is the object with what its
entry says; so the rows of a file are those of before, and then those of the entries. -/
theorem readable_of_writeAll
    (done : (Filing.writeAll (entries.map (output root))).run f = (.ok (), f')) :
    (∀ place, f'.text? place = extend (f.text? place)
      ((leadingTo f root place entries).map fun e => e.row.line)) ∧
    (∀ e ∈ entries, ∃ line : String, e.row.line = line ++ "\n" ∧ '\n' ∉ line.toList ∧
      Json.parse? line = some (.object [
        ("black", .text e.game.blackName),
        ("white", .text e.game.whiteName),
        ("result", .text e.game.resultText),
        ("length", .nat e.game.turns.length),
        ("sgf", .text e.recordName),
        ("tag", .text e.tag),
        ("timestamp", .nat e.seconds)])) ∧
    ∀ place before, f.rows? place = some before →
      f'.rows? place = some (before ++ (leadingTo f root place entries).map row) :=
  ⟨text?_of_writeAll done, fun e _ => e.exists_line, fun _ _ => rows?_of_writeAll done⟩

/-- An entry whose strings are full of what has to be escaped. -/
def awkward : TableEntry where
  spec := ⟨"club", "blitz", "games"⟩
  game := .new "\"black\\" "white\n\x7d\x01" .usual
  recordName := "\r\n"
  tag := "\t"
  seconds := 7

/-- An entry in another table. -/
def elsewhere : TableEntry := { awkward with spec := ⟨"club", "slow", "games"⟩ }

theorem readable_of_writeAll_awkward :
    ∃ f', (Filing.writeAll ([awkward, elsewhere, awkward].map (output "/tables"))).run ⟨[], []⟩ =
        (.ok (), f') ∧
      f'.rows? ["games.jsonl", "blitz", "club", "tables"] = some [awkward.row, awkward.row] := by
  have hwritten : ((Filing.writeAll ([awkward, elsewhere, awkward].map (output "/tables"))).run
      ⟨[], []⟩).1.toBool = true := by decide +kernel
  have hempty : Files.rows? ⟨[], []⟩ ["games.jsonl", "blitz", "club", "tables"] = some [] := by
    decide +kernel
  have hleading : leadingTo ⟨[], []⟩ "/tables" ["games.jsonl", "blitz", "club", "tables"]
      [awkward, elsewhere, awkward] = [awkward, awkward] := by
    have hhere : Files.resolve ⟨[], []⟩ (awkward.spec.path "/tables") =
        ["games.jsonl", "blitz", "club", "tables"] := by decide +kernel
    have hthere : Files.resolve ⟨[], []⟩ (elsewhere.spec.path "/tables") ≠
        ["games.jsonl", "blitz", "club", "tables"] := by decide +kernel
    simp only [leadingTo_cons, if_pos hhere, if_neg hthere]
    rfl
  cases hrun : (Filing.writeAll ([awkward, elsewhere, awkward].map (output "/tables"))).run
    ⟨[], []⟩ with
  | mk outcome f' =>
    rw [hrun] at hwritten
    cases outcome with
    | error e => cases hwritten
    | ok =>
      refine ⟨f', rfl, ?_⟩
      have hrows := (readable_of_writeAll hrun).2.2 _ _ hempty
      rwa [hleading] at hrows

end TableEntry

end Goban
