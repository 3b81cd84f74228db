import Goban.Game
import Goban.Json
import Goban.Table.Spec

/-!
# Rows of game records

A finished game is a row of a table: one JSON object on a line of its own. `TableFiles` holds what
was written to each table below one root directory; a new row comes after all rows of its table.
-/

namespace Goban

/-- What a table keeps of a game. -/
structure GameRow where
  black : String
  white : String
  result : String
  /-- The number of moves. -/
  length : Nat
  /-- The name under which the record of the game was saved. -/
  recordName : String
  tag : String
  /-- The time of writing, in seconds. -/
  timestamp : Nat
deriving DecidableEq, Repr

namespace GameRow

/-- The name that stands for a record that was not saved. -/
def notSaved : String := "NO_SGF_SAVED"

/-- The row of a game. -/
def ofGame (g : Game) (recordName tag : String) (timestamp : Nat) : GameRow where
  black := g.blackName
  white := g.whiteName
  result := g.resultText
  length := g.turns.length
  recordName := recordName
  tag := tag
  timestamp := timestamp

def toJson (r : GameRow) : Json := .object [
  ("black", .text r.black),
  ("white", .text r.white),
  ("result", .text r.result),
  ("length", .nat r.length),
  ("sgf", .text r.recordName),
  ("tag", .text r.tag),
  ("timestamp", .nat r.timestamp)]

/-- The line of a row, with its end. -/
def line (r : GameRow) : String := r.toJson.render ++ "\n"

end GameRow

/-- The contents of the files of tables, in the order in which the files came into being. -/
structure TableFiles where
  root : String
  files : List (String × String)
deriving DecidableEq, Repr

namespace TableFiles

/-- No table yet. -/
def empty (root : String) : TableFiles := ⟨root, []⟩

/-- The content of a file; empty if it does not exist. -/
def content (t : TableFiles) (path : String) : String :=
  ((t.files.find? (·.1 == path)).map (·.2)).getD ""

/-- The files with a text at the end of one of them, which is made if it does not exist. -/
def append (t : TableFiles) (path text : String) : TableFiles :=
  if t.files.any (·.1 == path) then
    { t with files := t.files.map fun f => if f.1 == path then (f.1, f.2 ++ text) else f }
  else { t with files := t.files ++ [(path, text)] }

/-- The files with one more row of a table. -/
def addRow (t : TableFiles) (spec : TableSpec) (row : GameRow) : TableFiles :=
  t.append (spec.path t.root) row.line

end TableFiles

end Goban
