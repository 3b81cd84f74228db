import Goban.Arena.Options
import Goban.Fault
import Goban.Files

/-!
# Failures

A failure is why the program ends without having done what it was asked for. It decides the exit code
and what is printed.
-/

namespace Goban

/-- Why the program ends early. -/
inductive Failure where
  /-- The command line is not usable, or asks for help. -/
  | usage (e : UsageError)
  /-- There is nothing to play, or not as the command line wants it. -/
  | arena (e : ArenaError)
  /-- The directory of the records cannot be made, or the summary cannot be written. -/
  | file (e : FileError)
  /-- A promise was broken on the way. -/
  | fault (f : Fault)
deriving DecidableEq, Repr

namespace Failure

/-- The exit code of the program. -/
def exitCode : Failure → Nat
  | usage .help => 0
  | usage _ => 2
  | arena _ | file _ => 1
  | fault _ => 134

/-- What is printed. -/
def text : Failure → String
  | usage .help => Options.usage
  | usage e => s!"error: {e.message}"
  | arena e => s!"Error: {e.message}"
  | file e => s!"Error: {e.message}"
  | fault f => f.message?.getD "a promise was broken"

end Failure

end Goban
