import Goban.Program
import Std.Time.DateTime

/-!
# The command line of the program

Reads the command line and the clock, lets a session advance, prints its notices with the time in
front, and writes its files as the games end.
-/

open Goban

namespace Goban.Main

/-- Seconds since the epoch, and nanoseconds since then. -/
def clock : IO (Nat × Nat) := do
  let t := (← Std.Time.Timestamp.now).toDurationSinceUnixEpoch
  return (t.second.val.toNat, t.nano.val.toNat)

/-- Prints notices; what stands behind a line break is indented. -/
def tell (elapsed : String) (notices : Array Notice) : IO Unit := do
  for n in notices do
    let (seconds, _) ← clock
    let text := "\n    ".intercalate ((n.text elapsed).splitOn "\n")
    IO.println s!"[{seconds} INFO] {text}"

/-- A time in milliseconds as seconds with two places. -/
def secondsText (ms : Nat) : String :=
  let hundredths := ms / 10
  let rest := toString (hundredths % 100)
  toString (hundredths / 100) ++ (if rest.length = 1 then ".0" else ".") ++ rest

/-- What the system says about a file that cannot be made. -/
def fileError : IO.Error → FileError
  | .noFileOrDirectory _ number reason | .interrupted _ number reason
  | .alreadyExists _ number reason | .invalidArgument _ number reason
  | .permissionDenied _ number reason | .resourceExhausted _ number reason
  | .inappropriateType _ number reason | .noSuchThing _ number reason
  | .otherError number reason | .resourceBusy number reason | .resourceVanished number reason
  | .unsupportedOperation number reason | .hardwareFault number reason
  | .unsatisfiedConstraints number reason | .illegalOperation number reason
  | .protocolError number reason | .timeExpired number reason => .other number.toNat reason
  | .unexpectedEof => .other 0 "unexpected end of a file"
  | .userError reason => .other 0 reason

/-- Writes an output to the files of the system. -/
def perform : Output → IO Unit
  | .directory path => IO.FS.createDirAll path
  | .record directory name text => do
    IO.FS.createDirAll directory
    IO.FS.writeFile (Game.recordPath directory name) text
  | .rows _ path text => do
    let directory := Path.parent path
    if !directory.isEmpty then IO.FS.createDirAll directory
    let file ← IO.FS.Handle.mk path .append
    file.putStr text
  | .summary path text => IO.FS.writeFile path text

/-- Writes outputs one after the other, as long as that is possible. -/
def performAll (outputs : List Output) : ExceptT Failure IO Unit := do
  for o in outputs do
    match ← (perform o).toBaseIO with
    | .ok () => pure ()
    | .error e => throw (o.failure (fileError e))

/-- Lets a session advance until all its games are played. -/
partial def play (s : Session) : ExceptT Failure IO Session := do
  let (notices, s) := s.takeNotices
  tell "" notices
  if s.run.isFinished then return s
  let next ← ExceptT.mk (pure ((s.atTime (← clock).1).advance 1000))
  performAll (next.run.arena.outputsSince s.run.arena)
  play next

/-- Plays and reports on what a command line asks for. -/
def run (o : Options) : ExceptT Failure IO Unit := do
  let (seconds, nanos) ← clock
  let seed := max 1 (UInt64.ofNat (seconds * 1000000000 + nanos))
  let (notices, made) := Session.start Loader.builtIn ⟨seconds, nanos⟩ seed o
  tell "" notices
  let s ← ExceptT.mk (pure made)
  performAll s.run.arena.preparation
  let begun ← IO.monoMsNow
  let s ← play s
  tell (secondsText ((← IO.monoMsNow) - begun)) s.run.closing
  performAll (s.run.arena.summaryOutput s.summaryPath)
  tell "" (Notice.farewell s.summaryPath)

/-- Ends the program without success. -/
def fail (f : Failure) : IO UInt32 := do
  if f.exitCode = 0 then IO.println f.text else IO.eprintln f.text
  return .ofNat f.exitCode

end Goban.Main

def main (arguments : List String) : IO UInt32 := do
  match Options.read arguments with
  | .error e => Goban.Main.fail (.usage e)
  | .ok o =>
    match ← (Goban.Main.run o).run with
    | .error f => Goban.Main.fail f
    | .ok () => return 0
