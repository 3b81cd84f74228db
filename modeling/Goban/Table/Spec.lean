import Goban.Path
import Goban.Text.Blank

/-!
# Tables of game records

A table is named by a project, an instance and a table name, which are written with commas between
them. Blanks around a field do not count, and no field is empty. The rows of a table are kept in a
file of its own below a root directory.
-/

namespace Goban

/-- The name of a table. -/
structure TableSpec where
  project : String
  inst : String
  table : String
deriving DecidableEq, Repr

namespace TableSpec

/-- The table that a text names. The empty text names no table; a text that is not three fields with
commas between them names none either, but by mistake, and is given back. -/
def parse (s : String) : Except String (Option TableSpec) :=
  if s.isEmpty then .ok none
  else match (Text.split ',' s.toList).map Text.trim with
    | [project, inst, table] =>
      if project.isEmpty || inst.isEmpty || table.isEmpty then .error s
      else .ok (some ⟨String.ofList project, String.ofList inst, String.ofList table⟩)
    | _ => .error s

/-- The file of a table below a root directory. -/
def path (root : String) (spec : TableSpec) : String :=
  Path.join (Path.join (Path.join root spec.project) spec.inst) (spec.table ++ ".jsonl")

end TableSpec

end Goban
