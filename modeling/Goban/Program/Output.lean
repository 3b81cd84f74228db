import Goban.Arena
import Goban.Program.Failure

/-!
# Output

What an arena has to show for its games stands in files: a directory of records, the files of tables,
and a summary. An `Output` is one thing to be written. `Filing` is work that writes outputs to a tree
of files; a program that writes them to the files of the system does the same there.
-/

namespace Goban

/-- Something to be written. -/
inductive Output where
  /-- The directory of the records. -/
  | directory (path : String)
  /-- A record under a name in a directory, which is made if it does not exist. -/
  | record (directory name text : String)
  /-- Rows of the games whose records have this name, to be added to the file of a table. -/
  | rows (recordName path text : String)
  /-- A summary. -/
  | summary (path text : String)
deriving DecidableEq, Repr

namespace Output

/-- Writes to a tree of files. -/
def perform (f : Files) : Output → Except FileError Files
  | directory path => f.makeDirectories path
  | record dir name text => do (← f.makeDirectories dir).write (Game.recordPath dir name) text
  | rows _ path text => do (← f.makeParents path).append path text
  | summary path text => f.write path text

/-- What it means that an output cannot be written: a game that cannot be saved is a broken promise. -/
def failure (e : FileError) : Output → Failure
  | directory _ | summary _ _ => .file e
  | record _ name _ => .fault (.unsavedRecord name e.message)
  | rows name _ _ => .fault (.unsavedRow name e.message)

end Output

/-- Work that writes to a tree of files. What was written before a failure stays. -/
abbrev Filing := ExceptT Failure (StateM Files)

namespace Filing

/-- Writes an output. -/
def write (o : Output) : Filing Unit := do
  match o.perform (← get) with
  | .ok files => set files
  | .error e => throw (o.failure e)

/-- Writes outputs one after the other. -/
def writeAll (os : List Output) : Filing Unit := os.forM write

/-- Work that does not look at files. -/
def ofExcept {ε α : Type} (failure : ε → Failure) (x : Except ε α) : Filing α :=
  ExceptT.mk (pure (x.mapError failure))

end Filing

namespace Arena

/-- What has to be there before the first game. -/
def preparation (a : Arena) : List Output :=
  if a.config.recordDirectory.isEmpty then [] else [.directory a.config.recordDirectory]

/-- What the games since an earlier state of the arena have added. -/
def outputsSince (a old : Arena) : List Output :=
  let records := a.records.drop old.records.length
  let name := (records.head?.map (·.1)).getD GameRow.notSaved
  records.map (fun (name, text) => .record a.config.recordDirectory name text) ++
    a.tables.files.filterMap fun (path, content) =>
      let known := (old.tables.content path).length
      if known < content.length then some (.rows name path (content.drop known).toString) else none

/-- The summary of an arena whose games were all played, if there is a path for it. -/
def summaryOutput (a : Arena) (path : Option String) : List Output :=
  path.toList.map fun path => .summary path a.summary.render

end Arena

end Goban
