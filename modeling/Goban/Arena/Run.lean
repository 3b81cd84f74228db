import Goban.Arena
import Goban.Batch.Schedule
import Goban.Match
import Goban.Seed

/-!
# Runs

A run plays the games of an arena, each with a worker of its own. A worker registers its game, plays
it turn by turn, waits for the answers to what its players ask, and ends the game; then the arena
takes the game in. The workers and the clients of their players proceed one step at a time, in any
order; what becomes of a game does not depend on it.

`advance` chooses an order: clients come first, so that every answer is at hand before another
question is asked; all games begin before one is played, so that batches become full; and of several
the first one proceeds.
-/

namespace Goban

/-- How far a worker is. -/
inductive Stage where
  /-- Its game is not registered yet. -/
  | fresh (m : Match)
  /-- Its game is being registered. -/
  | opening (m : Match)
  /-- It stands between two turns. -/
  | playing (m : Match)
  /-- A player, who asks through the given client, is at work. -/
  | thinking (client : Nat) (work : Inquiry Match)
  /-- A player waits for an answer. -/
  | waiting (client : Nat) (next : List Evaluation → Inquiry Match)
  /-- Its game is being ended. -/
  | closing (m : Match)
  /-- Its game was taken in. -/
  | finished (m : Match)

instance : Inhabited Stage := ⟨.waiting 0 fun _ => .fail .outOfSteps⟩

/-- A game under way. -/
structure Worker where
  number : Nat
  /-- The client of the player with black. -/
  black : Nat
  /-- The client of the player with white. -/
  white : Nat
  stage : Stage

instance : Inhabited Worker := ⟨⟨0, 0, 0, default⟩⟩

namespace Worker

/-- The client of the player of a color. -/
def client (w : Worker) : Color → Nat
  | .black => w.black
  | .white => w.white

/-- Whether the game of a worker was taken in. -/
def isFinished (w : Worker) : Bool :=
  match w.stage with
  | .finished _ => true
  | _ => false

/-- Whether the game of a worker has still to begin. -/
def isBeginning (w : Worker) : Bool :=
  match w.stage with
  | .fresh _ | .opening _ => true
  | _ => false

end Worker

/-- The games of an arena under way. -/
structure Run where
  arena : Arena
  table : Option TableSpec
  workers : Array Worker
  /-- The notices since the last look, the oldest first. -/
  notices : Array Notice

/-- Checks what a run needs, and finds its table. -/
def Arena.plan (a : Arena) : Except ArenaError (Option TableSpec) :=
  match TableSpec.parse a.config.table with
  | .error text => .error (.invalidTable text)
  | .ok table => if a.config.parallelGames = 0 then .error .noGames else .ok table

namespace Run

/-- A worker for a game of the arena, with players that start from the empty board. -/
def newWorker (a : Arena) (seed : UInt64) (number : Nat) : Except Fault (Arena × Worker) := do
  let options := a.config.gameOptions
  let black := a.contender number .black
  let white := a.contender number .white
  let (blackClient, hub) ← a.hub.addClient black.device black.key
  let (whiteClient, hub) ← hub.addClient white.device white.key
  let start := Position.initial options.komi
  let player (c : Contender) (color : Color) : Except Fault Player :=
    let seed := playerSeed seed (.ofNat number) color
    Player.new c.name { c.options with seed } Noise.dirichlet start
  let m : Match := {
    game := .fromPosition black.name white.name options start
    black := ← player black .black
    white := ← player white .white
    log := #[] }
  return ({ a with hub }, ⟨number, blackClient, whiteClient, .fresh m⟩)

/-- The workers of the games from `number` on. -/
def newWorkers (seed : UInt64) : (count number : Nat) → Arena → Array Worker →
    Except Fault (Arena × Array Worker)
  | 0, _, a, workers => .ok (a, workers)
  | count + 1, number, a, workers => do
    let (a, w) ← newWorker a seed number
    newWorkers seed count (number + 1) a (workers.push w)

/-- Begins a run. The base seed comes from the configuration, or else from the clock. -/
def start (a : Arena) (table : Option TableSpec) (clockSeed : UInt64) : Except Fault Run := do
  let seed := if a.config.seed = 0 then clockSeed else a.config.seed
  let notice := Notice.evaluating a.evaluated.name a.target.name a.config.parallelGames seed
  let (arena, workers) ← newWorkers seed a.config.parallelGames 0 a #[]
  return { arena, table, workers, notices := #[notice] }

def worker (r : Run) (i : Nat) : Worker := r.workers.getD i default

/-- The run with a worker at another stage. -/
def setStage (r : Run) (i : Nat) (stage : Stage) : Run :=
  { r with workers := r.workers.modify i fun w => { w with stage } }

def setHub (r : Run) (hub : Hub) : Run := { r with arena := { r.arena with hub } }

def notify (r : Run) (ns : Array Notice) : Run := { r with notices := r.notices ++ ns }

/-- Whether a game is reported move by move. -/
def isReported (r : Run) (w : Worker) : Bool := r.arena.config.verbose && w.number == 0

/-- What is told at the end of a reported game. -/
def farewell (g : Game) : Array Notice :=
  #[.report s!"Black was: {g.blackName}", .report s!"White was: {g.whiteName}",
    .report s!"Final score: {g.resultText}"]

/-- Whether a client has nothing under way. -/
def isIdle (h : Hub) (client : Nat) : Bool :=
  match (h.client client).phase with
  | .idle => true
  | _ => false

/-- Whether a worker can proceed. -/
def canProceed (r : Run) (w : Worker) : Bool :=
  match w.stage with
  | .fresh _ | .playing _ | .thinking _ _ => true
  | .opening _ | .closing _ => isIdle r.arena.hub w.black
  | .waiting client _ =>
    match (r.arena.hub.client client).phase with
    | .answered _ => true
    | _ => false
  | .finished _ => false

/-- A worker takes its next step, if it can. -/
def proceed (r : Run) (i : Nat) : Except Fault Run :=
  let w := r.worker i
  let hub := r.arena.hub
  match w.stage with
  | .fresh m => do return (r.setHub (← hub.startGame w.black w.white)).setStage i (.opening m)
  | .opening m => .ok (if isIdle hub w.black then r.setStage i (.playing m) else r)
  | .playing m =>
    let r := r.notify (m.log.map .report)
    let m := { m with log := #[] }
    if m.game.isOver then do
      return (r.setHub (← hub.endGame w.black w.white)).setStage i (.closing m)
    else .ok (r.setStage i (.thinking (w.client m.mover) (m.turn (r.isReported w))))
  | .thinking _ (.done m) => .ok (r.setStage i (.playing m))
  | .thinking _ (.fail f) => .error f
  | .thinking client (.ask positions next) => do
    return (r.setHub (← hub.request client positions)).setStage i (.waiting client next)
  | .waiting client next =>
    match hub.collect? client with
    | some (answer, hub) => .ok ((r.setHub hub).setStage i (.thinking client (next answer)))
    | none => .ok r
  | .closing m =>
    if isIdle hub w.black then do
      let arena ← r.arena.takeIn r.table w.number m.game m.black.summary m.white.summary
      let told := if r.isReported w then farewell m.game else #[]
      let r := ({ r with arena }.notify told).notify #[.stopped w.number]
      return r.setStage i (.finished m)
    else .ok r
  | .finished _ => .ok r

/-- The worker that proceeds if no client can: one that has not begun its game, if there is one. -/
def nextWorker? (r : Run) : Option Nat :=
  match r.workers.findIdx? fun w => w.isBeginning && r.canProceed w with
  | some i => some i
  | none => r.workers.findIdx? r.canProceed

/-- One step of some client, or else of some worker; none if all games are finished or stuck. -/
def step? (r : Run) : Option (Except Fault Run) :=
  match r.arena.hub.nextClient? with
  | some i => some (r.setHub <$> r.arena.hub.proceed i)
  | none => r.nextWorker?.map r.proceed

/-- Takes up to so many steps. -/
def advance : (steps : Nat) → Run → Except Fault Run
  | 0, r => .ok r
  | steps + 1, r =>
    match r.step? with
    | none => .ok r
    | some (.ok r) => advance steps r
    | some (.error f) => .error f

/-- Whether all games were taken in. -/
def isFinished (r : Run) : Bool := r.workers.all Worker.isFinished

/-- What is told at the end of a run. -/
def closing (r : Run) : Array Notice :=
  #[.played r.arena.config.parallelGames r.arena.stats, .wins r.arena.results]

/-- Plays all games of an arena, in at most so many steps, and tells what there was to tell. -/
def playAll (a : Arena) (table : Option TableSpec) (clockSeed : UInt64) (steps : Nat) :
    Except Fault (Array Notice × Arena) := do
  let r ← (← start a table clockSeed).advance steps
  if r.isFinished then return (r.notices ++ r.closing, r.arena) else throw .outOfSteps

end Run

end Goban
