import Goban.Arena.Run
import Goban.Program.Output

/-!
# The program

The program plays all games of an arena, and writes the records of the games, the rows of its table
and a summary. `Options.play` is all of that on a tree of files. A session is the same for a caller who
wants to see notices and files as the games go on: it advances as many steps at a time as that
caller likes.
-/

namespace Goban

/-- A run of the program under way. -/
structure Session where
  run : Run
  /-- The file for the summary, if one is wanted. -/
  summaryPath : Option String

namespace Session

/-- Loads the models and prepares the games. The notices up to a failure count. -/
def start (loader : Loader) (stamp : Stamp) (clockSeed : UInt64) (o : Options) :
    Array Notice × Except Failure Session :=
  let (notices, made) := Arena.new o.config loader stamp
  (notices, do
    let arena ← made.mapError .arena
    let table ← arena.plan.mapError .arena
    let run ← (Run.start arena table clockSeed).mapError .fault
    return ⟨run, o.summaryPath⟩)

/-- Takes up to so many steps. -/
def advance (steps : Nat) (s : Session) : Except Failure Session :=
  match s.run.advance steps with
  | .ok run => .ok { s with run }
  | .error f => .error (.fault f)

/-- The session after another look at the clock. -/
def atTime (seconds : Nat) (s : Session) : Session :=
  let arena := s.run.arena
  { s with run := { s.run with arena := { arena with stamp := { arena.stamp with seconds } } } }

/-- The notices since the last look, and the session without them. -/
def takeNotices (s : Session) : Array Notice × Session :=
  (s.run.notices, { s with run := { s.run with notices := #[] } })

end Session

/-- Plays all games of an arena, in at most so many steps, and writes what they add. -/
def Arena.play (a : Arena) (clockSeed : UInt64) (steps : Nat) : Filing (Array Notice × Arena) := do
  let table ← .ofExcept .arena a.plan
  .writeAll a.preparation
  let (notices, next) ← .ofExcept .fault (Run.playAll a table clockSeed steps)
  .writeAll (next.outputsSince a)
  return (notices, next)

/-- All that the program does for a command line, in at most so many steps: it tells its notices. -/
def Options.play (o : Options) (loader : Loader) (stamp : Stamp) (clockSeed : UInt64)
    (steps : Nat) : Filing (Array Notice) := do
  let (loaded, made) := Arena.new o.config loader stamp
  let (notices, a) ← (← .ofExcept .arena made).play clockSeed steps
  .writeAll (a.summaryOutput o.summaryPath)
  return loaded ++ notices ++ Notice.farewell o.summaryPath

end Goban
