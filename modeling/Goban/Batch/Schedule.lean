import Goban.Batch.Hub

/-!
# Schedules

A schedule chooses which event comes next. `settle` lets the clients proceed, the first one that can
first, until every client is idle, asleep or has its answer.
-/

namespace Goban

namespace Phase

/-- Whether a client in this phase has something to do by itself. -/
def canProceed : Phase → Bool
  | idle | asleep _ | answered _ | held => false
  | leaving _ | submitting _ | awake _ | running _ _ | rejoining _ | opening _ | closing _ => true

end Phase

/-- A fault, and the client whose request met it, if it was one. -/
structure Mishap where
  client : Option Nat
  fault : Fault
deriving DecidableEq, Repr

namespace Hub

/-- The first client that has something to do. -/
def nextClient? (h : Hub) : Option Nat := h.clients.findIdx? (·.phase.canProceed)

/-- The first client but one that has something to do. -/
def nextOther? (h : Hub) (but : Nat) : Option Nat :=
  (List.range h.clients.size).find? fun i => i != but && (h.client i).phase.canProceed

/-- The client itself if it works on a request. What it does to start or end a game it does for both
clients of the game. -/
def requester? (h : Hub) (i : Nat) : Option Nat :=
  match (h.client i).phase with
  | .opening _ | .closing _ => none
  | _ => some i

/-- Lets all clients but one proceed as long as one of them can, or until one meets a fault. -/
def settleOthers (but : Nat) : (steps : Nat) → Hub → Hub
  | 0, h => h
  | steps + 1, h =>
    match h.nextOther? but with
    | none => h
    | some i =>
      match h.proceed i with
      | .ok h => settleOthers but steps h
      | .error _ => h

/-- Lets clients proceed as long as one of them can. One that meets a fault is left where it is. -/
def settleFor : (steps : Nat) → Hub → Hub × Option Mishap
  | 0, h => (h, none)
  | steps + 1, h =>
    match h.nextClient? with
    | none => (h, none)
    | some i =>
      match h.proceed i with
      | .ok h => settleFor steps h
      | .error fault => (settleOthers i steps h, some ⟨h.requester? i, fault⟩)

/-- Lets clients proceed until none of them can. Each of them leaves, submits, runs and comes back at
most once, and each of these steps wakes every client at most once. -/
def settle (h : Hub) : Hub × Option Mishap := settleFor (8 * Nat.pow (h.clients.size + 2) 2) h

/-- The clients that wait for an answer. -/
def waiting (h : Hub) : List Nat :=
  (List.range h.clients.size).filter fun i =>
    match (h.client i).phase with
    | .asleep _ => true
    | _ => false

/-- Hands out the answers of some clients, each with its client. -/
def collectFrom : List Nat → Hub → List (Nat × List Evaluation) × Hub
  | [], h => ([], h)
  | i :: rest, h =>
    match h.collect? i with
    | some (answer, h) => let (others, h) := collectFrom rest h; ((i, answer) :: others, h)
    | none => collectFrom rest h

/-- Hands out all answers. -/
def collectAll (h : Hub) : List (Nat × List Evaluation) × Hub :=
  collectFrom (List.range h.clients.size) h

/-- Takes the waiting requests of a device from outside, and runs them at once. -/
def flushNow (h : Hub) (device : Nat) : Except Mishap Hub :=
  match (h.flush device).runFlush 0 with
  | .ok h => .ok h
  | .error fault => .error ⟨none, fault⟩

/-- Flushes some devices in turn, and lets the clients proceed after each. -/
def flushEach : List Nat → Hub → Except Mishap Hub
  | [], h => .ok h
  | i :: rest, h => do
    match (← h.flushNow i).settle with
    | (h, none) => flushEach rest h
    | (_, some mishap) => throw mishap

/-- Flushes all devices in turn until no client waits, at most so many times. -/
def drain : (rounds : Nat) → Hub → Except Mishap Hub
  | 0, h => .ok h
  | rounds + 1, h =>
    if h.waiting.isEmpty then .ok h
    else do drain rounds (← flushEach (List.range h.devices.size) h)

end Hub

end Goban
