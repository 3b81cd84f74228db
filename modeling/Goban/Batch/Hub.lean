import Goban.Batch.Device

/-!
# Clients of devices

A hub is a number of devices and their clients. A client asks one model of one device, for one game at
a time; it makes a request and waits for the answer. The two clients of a game are registered
together. If their devices differ, a client that makes a request first tells the other device that
the game is away, so that no batch there waits for it, and tells it when the game is back.

Every client is a thread of its own. What it does while it holds the lock of a device is one event,
and so is the run of a batch, for which it holds none; `act` says what an event does. A client that
finds neither its answer nor a full batch falls asleep, and whoever changes the device in a way that
may matter to it wakes it. It may also wake by itself, and then looks again. Any order of events is a
run of the hub.
-/

namespace Goban

/-- What a client is about to do. -/
inductive Phase where
  /-- Nothing. -/
  | idle
  /-- Tell the other device of its game that the game is away. -/
  | leaving (positions : List Position)
  /-- Put its request on the queue of its device. -/
  | submitting (positions : List Position)
  /-- Look for its answer or a full batch. -/
  | awake (ticket : Nat)
  /-- Wait until it is woken. -/
  | asleep (ticket : Nat)
  /-- Run a batch that it has taken. -/
  | running (ticket : Nat) (batch : List Request)
  /-- Tell the other device that the game is back. -/
  | rejoining (answer : List Evaluation)
  /-- Hand out its answer. -/
  | answered (answer : List Evaluation)
  /-- Register its game on the device of its partner too. -/
  | opening (partner : Nat)
  /-- End its game on the device of its partner too. -/
  | closing (partner : Nat)
  /-- Wait for its partner, which opens or closes their game. -/
  | held

/-- A caller of one model. -/
structure Client where
  /-- The number of its device. -/
  device : Nat
  key : ModelKey
  /-- The name of its model. -/
  name : String
  inGame : Bool
  /-- The device of the other client of its game, if that is another device. -/
  opponentDevice : Option Nat
  phase : Phase

instance : Inhabited Client := ⟨⟨0, 0, "", false, none, .idle⟩⟩

/-- The client, awake if it slept until a change of the device. -/
def Client.rouse (device : Nat) (c : Client) : Client :=
  match c.phase with
  | .asleep ticket => if c.device = device then { c with phase := .awake ticket } else c
  | _ => c

/-- What is measured on the way. -/
inductive Measurement where
  /-- The number of live games of a device after it changed. -/
  | liveGames (device : String) (games : Nat)
  /-- A call of the model in a file. -/
  | call (device path : String) (positions : List Position)

/-- Devices, their clients, and batches that run without a client. -/
structure Hub where
  devices : Array Device
  clients : Array Client
  /-- Batches that were taken from outside: the device and the requests. -/
  flushes : List (Nat × List Request)
  /-- All measurements, the latest first. -/
  journal : List Measurement

/-- What may happen next. -/
inductive Event where
  /-- Two clients start a game. -/
  | startGame (a b : Nat)
  /-- Two clients end their game. -/
  | endGame (a b : Nat)
  /-- A client makes a request. -/
  | request (client : Nat) (positions : List Position)
  /-- A client does what it is about to do. -/
  | proceed (client : Nat)
  /-- A client hands out its answer. -/
  | collect (client : Nat)
  /-- The waiting requests of a device are taken from outside. -/
  | flush (device : Nat)
  /-- One of the batches that were taken from outside is run. -/
  | runFlush (k : Nat)
  /-- A sleeping client wakes though nothing has changed. -/
  | stir (client : Nat)

namespace Hub

/-- A hub without clients. -/
def new (devices : List Device) : Hub := ⟨devices.toArray, #[], [], []⟩

def device (h : Hub) (i : Nat) : Device := h.devices.getD i default

def client (h : Hub) (i : Nat) : Client := h.clients.getD i default

/-- The hub with another state of a device. -/
def setDevice (h : Hub) (i : Nat) (d : Device) : Hub :=
  { h with devices := h.devices.setIfInBounds i d }

/-- The hub with a changed client. -/
def changeClient (h : Hub) (i : Nat) (f : Client → Client) : Hub :=
  { h with clients := h.clients.modify i f }

def setPhase (h : Hub) (i : Nat) (phase : Phase) : Hub :=
  h.changeClient i fun c => { c with phase }

/-- Adds a client of a model that is loaded on a device. -/
def addClient (h : Hub) (device : Nat) (key : ModelKey) : Except Fault (Nat × Hub) :=
  match (h.device device).modelName? key with
  | none => .error .modelKey
  | some name =>
    .ok (h.clients.size, { h with clients := h.clients.push ⟨device, key, name, false, none, .idle⟩ })

/-- Wakes the clients that wait for a change of a device. -/
def wake (h : Hub) (device : Nat) : Hub :=
  { h with clients := (h.clients.toList.map (·.rouse device)).toArray }

def measure (h : Hub) (ms : List Measurement) : Hub :=
  { h with journal := ms.reverse ++ h.journal }

/-! ## Games -/

/-- Registers a game on a device. -/
def register (h : Hub) (i : Nat) : Hub :=
  let d := (h.device i).register
  (h.setDevice i d).measure [.liveGames d.name d.live]

/-- Ends a game on a device, on which the requests that wait may now make a full batch. -/
def unregister (h : Hub) (i : Nat) : Except Fault Hub := do
  let d ← (h.device i).unregister
  return ((h.setDevice i d).measure [.liveGames d.name d.live]).wake i

/-- Marks two clients as in a game; each knows the other's device if it is not its own. -/
def enter (h : Hub) (a b : Nat) : Hub :=
  let x := h.client a
  let y := h.client b
  let apart (other : Nat) (c : Client) : Client :=
    if x.device = y.device then { c with inGame := true, phase := .idle }
    else { c with inGame := true, phase := .idle, opponentDevice := some other }
  (h.changeClient a (apart y.device)).changeClient b (apart x.device)

/-- Marks two clients as in no game. -/
def exit (h : Hub) (a b : Nat) : Hub :=
  let out (c : Client) : Client := { c with inGame := false, phase := .idle, opponentDevice := none }
  (h.changeClient a out).changeClient b out

/-- Starts a game of two clients on the first one's device, and then on the second one's if that is
another. -/
def startGame (h : Hub) (a b : Nat) : Except Fault Hub :=
  let x := h.client a
  let y := h.client b
  if x.inGame || y.inGame then .error (.alreadyRegistered x.name y.name)
  else
    let h := h.register x.device
    if x.device = y.device then .ok (h.enter a b)
    else .ok ((h.setPhase a (.opening b)).setPhase b .held)

/-- Ends the game of two clients on the first one's device, and then on the second one's if that is
another. -/
def endGame (h : Hub) (a b : Nat) : Except Fault Hub :=
  let x := h.client a
  let y := h.client b
  if !(x.inGame && y.inGame) then .error (.notRegistered x.name y.name)
  else do
    let h ← h.unregister x.device
    if x.device = y.device then return h.exit a b
    else return (h.setPhase a (.closing b)).setPhase b .held

/-! ## Requests -/

/-- Begins a request. Nothing is asked for no positions. -/
def request (h : Hub) (i : Nat) (positions : List Position) : Except Fault Hub :=
  let c := h.client i
  if !c.inGame then .error (.outsideGame c.name)
  else if positions.isEmpty then .ok (h.setPhase i (.answered []))
  else .ok (h.setPhase i (if c.opponentDevice.isSome then .leaving positions
    else .submitting positions))

/-- With the lock of its device a client looks for its answer, else for a full batch, else it falls
asleep. -/
def look (h : Hub) (i : Nat) (ticket : Nat) : Hub :=
  let c := h.client i
  let d := h.device c.device
  match d.collect? ticket with
  | some (answer, d) => (h.setDevice c.device d).setPhase i
      (if c.opponentDevice.isSome then .rejoining answer else .answered answer)
  | none =>
    if d.isReady then (h.setDevice c.device d.taken).setPhase i (.running ticket d.pending)
    else h.setPhase i (.asleep ticket)

/-- Runs a batch of a device and lays out the answers. -/
def runBatch (h : Hub) (i : Nat) (batch : List Request) : Except Fault Hub := do
  let d := h.device i
  let run ← Device.runBatch d.models batch
  let h := (h.setDevice i (d.publish run)).wake i
  return h.measure (run.calls.map fun (path, positions) => .call d.name path positions)

/-- A client does what it is about to do. -/
def proceed (h : Hub) (i : Nat) : Except Fault Hub :=
  let c := h.client i
  match c.phase with
  | .leaving positions => do
    let other := c.opponentDevice.getD c.device
    let h := (h.setDevice other (← (h.device other).leave)).wake other
    return h.setPhase i (.submitting positions)
  | .submitting positions => do
    let (ticket, d) ← (h.device c.device).submit c.key positions
    return (h.setDevice c.device d).look i ticket
  | .awake ticket => .ok (h.look i ticket)
  | .running ticket batch => do return (← h.runBatch c.device batch).look i ticket
  | .rejoining answer => do
    let other := c.opponentDevice.getD c.device
    return (h.setDevice other (← (h.device other).rejoin)).setPhase i (.answered answer)
  | .opening partner => .ok ((h.register (h.client partner).device).enter i partner)
  | .closing partner => do return (← h.unregister (h.client partner).device).exit i partner
  | .idle | .asleep _ | .answered _ | .held => .ok h

/-- The answer that a client has, and the hub after it was handed out. -/
def collect? (h : Hub) (i : Nat) : Option (List Evaluation × Hub) :=
  match (h.client i).phase with
  | .answered answer => some (answer, h.setPhase i .idle)
  | _ => none

/-- Takes the waiting requests of a device, if there are any. -/
def flush (h : Hub) (i : Nat) : Hub :=
  let d := h.device i
  if d.pending.isEmpty then h
  else { h.setDevice i d.taken with flushes := h.flushes ++ [(i, d.pending)] }

/-- Runs one of the batches that were taken from outside; they finish in any order. -/
def runFlush (h : Hub) (k : Nat) : Except Fault Hub :=
  match h.flushes[k]? with
  | none => .ok h
  | some (i, batch) => { h with flushes := h.flushes.eraseIdx k }.runBatch i batch

/-- Wakes one client, if it sleeps. -/
def stir (h : Hub) (i : Nat) : Hub := h.changeClient i fun c => c.rouse c.device

/-- What an event does to a hub. -/
def act (h : Hub) : Event → Except Fault Hub
  | .startGame a b => h.startGame a b
  | .endGame a b => h.endGame a b
  | .request i positions => h.request i positions
  | .proceed i => h.proceed i
  | .collect i => .ok (match h.collect? i with | some (_, h) => h | none => h)
  | .flush i => .ok (h.flush i)
  | .runFlush k => h.runFlush k
  | .stir i => .ok (h.stir i)

end Hub

end Goban
