import Goban.Batch.Stats
import Goban.Model

/-!
# Devices

A device holds models and runs the requests of the games that are registered there. A request waits
until a batch is full: until there is a request from every live game that does not wait on another
device, divided by the number of buffers, which is the number of batches that may run at once. All
waiting requests are then taken together, each model is called once for all its requests, and the
answers are cut apart again and laid out under the tickets of the requests.

The functions of this module are what is done to a device between locking and unlocking it, and the
run of a batch, for which no lock is held.
-/

namespace Goban

/-- The number of a model on its device. -/
abbrev ModelKey := Nat

/-- A way to get the model in a file for a device, or the reason why there is none. -/
abbrev Loader := String → String → Except String Model

/-- The loader that knows no model but the built-in one. -/
def Loader.builtIn : Loader := fun path _ =>
  if path = Model.uniformPath then .ok Model.uniform
  else .error s!"there is no model in the file '{path}'"

/-- A model on a device, with the path of its file. -/
structure LoadedModel where
  path : String
  model : Model

/-- Positions to be evaluated by a model, under the ticket of the caller who waits for them. -/
structure Request where
  ticket : Nat
  key : ModelKey
  positions : List Position
deriving DecidableEq

/-- A device with its models and the state of its requests. -/
structure Device where
  name : String
  /-- The number of batches that may run at once. -/
  buffers : Nat
  models : List LoadedModel
  /-- The number of games registered here that have not ended. -/
  live : Nat
  /-- The number of live games that wait on another device. -/
  away : Nat
  /-- The number of requests that were submitted and not yet returned to their callers. -/
  asking : Nat
  /-- The requests that no batch has taken yet, the oldest first. -/
  pending : List Request
  /-- The answers that their callers have not collected yet, by their tickets. -/
  results : List (Nat × List Evaluation)
  nextTicket : Nat
  stats : BatchStats

namespace Device

/-- A device without models and games. -/
def empty (name : String) (buffers : Nat) : Device where
  name := name
  buffers := buffers
  models := []
  live := 0
  away := 0
  asking := 0
  pending := []
  results := []
  nextTicket := 0
  stats := .none

/-- A device without models and games; it needs a buffer to run batches in. -/
def new (name : String) (buffers : Nat) : Except Fault Device :=
  if buffers = 0 then .error .noBuffers else .ok (empty name buffers)

instance : Inhabited Device := ⟨empty "" 1⟩

/-- The key of a file that was loaded. -/
def keyOf? (d : Device) (path : String) : Option ModelKey := d.models.findIdx? (·.path == path)

/-- Loads the model in a file and gives its key. A file that was loaded before keeps its key; only for
another one the loader is called, in whatever way it comes to its answer. -/
def loadWith {m : Type → Type} [Monad m] (call : String → String → m (Except String Model))
    (path : String) (d : Device) : m (Except String (ModelKey × Device)) :=
  match d.keyOf? path with
  | some key => pure (.ok (key, d))
  | none => do
    match ← call path d.name with
    | .ok model =>
      return .ok (d.models.length, { d with models := d.models ++ [⟨path, model⟩] })
    | .error reason => return .error s!"loading model '{path}' on device '{d.name}': {reason}"

/-- Loads the model in a file with a loader that does nothing but answer. -/
def load (loader : Loader) (path : String) (d : Device) : Except String (ModelKey × Device) :=
  Id.run (d.loadWith (fun path name => pure (loader path name)) path)

/-- The name of a model on the device. -/
def modelName? (d : Device) (key : ModelKey) : Option String := d.models[key]?.map (·.model.name)

/-! ## Registered games -/

/-- Registers a game. -/
def register (d : Device) : Device := { d with live := d.live + 1 }

/-- Ends a game that was registered. -/
def unregister (d : Device) : Except Fault Device :=
  if d.live = 0 then .error .noLiveGame
  else
    let live := d.live - 1
    if d.asking ≤ live ∧ d.away ≤ live then .ok { d with live }
    else .error (.gameCounts live d.asking d.away)

/-- Counts a game registered here as waiting on another device. -/
def leave (d : Device) : Except Fault Device :=
  if d.away < d.live then .ok { d with away := d.away + 1 } else .error .strayGame

/-- Counts a game as back from another device. -/
def rejoin (d : Device) : Except Fault Device :=
  if d.away = 0 then .error .awayBalance else .ok { d with away := d.away - 1 }

/-! ## Requests -/

/-- Puts a request on the queue and gives its ticket. -/
def submit (key : ModelKey) (positions : List Position) (d : Device) :
    Except Fault (Nat × Device) :=
  if d.asking < d.live then .ok (d.nextTicket, { d with
    nextTicket := d.nextTicket + 1
    asking := d.asking + 1
    pending := d.pending ++ [⟨d.nextTicket, key, positions⟩] })
  else .error (.tooManyRequests (d.asking + 1) d.live)

/-- Hands out the answer under a ticket, if there is one. -/
def collect? (ticket : Nat) (d : Device) : Option (List Evaluation × Device) :=
  match d.results.find? (·.1 == ticket) with
  | some (_, answer) => some (answer, { d with
      results := d.results.filter (·.1 != ticket)
      asking := d.asking - 1 })
  | none => none

/-- The number of requests that make a full batch. -/
def batchSize (d : Device) : Nat := max ((d.live - d.away + d.buffers - 1) / d.buffers) 1

/-- Whether the waiting requests make a full batch. -/
def isReady (d : Device) : Bool := !d.pending.isEmpty && d.batchSize ≤ d.pending.length

/-- The device after a batch has taken the waiting requests. -/
def taken (d : Device) : Device := { d with pending := [] }

/-! ## Batches -/

/-- What the run of a batch gives. -/
structure BatchRun where
  /-- The answers by their tickets. -/
  results : List (Nat × List Evaluation)
  stats : BatchStats
  /-- The calls of models, in order: the path of the model and its positions. -/
  calls : List (String × List Position)

/-- The requests of a batch by their models, in the order of first requests. -/
def groups (requests : List Request) : List (ModelKey × List Request) :=
  (requests.map (·.key)).eraseDups.map fun key => (key, requests.filter (·.key == key))

/-- Cuts the answers to all positions of some requests into the answers to each request. -/
def cut : List Request → List Evaluation → List (Nat × List Evaluation)
  | [], _ => []
  | r :: rest, answers =>
    (r.ticket, answers.take r.positions.length) :: cut rest (answers.drop r.positions.length)

/-- Calls a model once for all positions of some requests. -/
def runGroup (models : List LoadedModel) (key : ModelKey) (requests : List Request) :
    Except Fault BatchRun :=
  match models[key]? with
  | none => .error .modelKey
  | some loaded =>
    let positions := requests.flatMap (·.positions)
    let answers := loaded.model.evaluate positions
    if answers.length = positions.length then .ok {
      results := cut requests answers
      stats := ⟨1, requests.length, positions.length⟩
      calls := [(loaded.path, positions)] }
    else .error .answerCount

/-- Runs a batch, one model after the other. -/
def runGroups (models : List LoadedModel) : List (ModelKey × List Request) →
    Except Fault BatchRun
  | [] => .ok ⟨[], .none, []⟩
  | (key, requests) :: rest => do
    let first ← runGroup models key requests
    let others ← runGroups models rest
    .ok {
      results := first.results ++ others.results
      stats := first.stats.merge others.stats
      calls := first.calls ++ others.calls }

/-- Runs a batch of requests. -/
def runBatch (models : List LoadedModel) (requests : List Request) : Except Fault BatchRun :=
  runGroups models (groups requests)

/-- Lays out the answers of a batch for their callers. -/
def publish (run : BatchRun) (d : Device) : Device :=
  { d with results := d.results ++ run.results, stats := d.stats.merge run.stats }

end Device

end Goban
