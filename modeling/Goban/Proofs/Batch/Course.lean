import Goban.Proofs.Batch.Loads
import Goban.Proofs.Batch.Views

/-!
# Courses of a hub

Anybody may do anything to a hub at any time, with one exception: the two clients of a game belong
to one thread. It starts the game before it makes requests, makes one request at a time through
either client, takes the answer before it goes on, and ends the game when nothing is under way. A
course is a hub that is used so (`Course.Allows`), together with what the hub itself does not
remember: which games are live, what each client asked last and which ticket it got for that, and
which tickets have been returned.

`Course.Run` is any finite order of what is allowed. Devices and their buffers, loads, clients and
games are not limited in number, a batch may be flushed at any time, and a sleeping client may wake
without a reason.
-/

namespace Goban

/-- A hub in use. -/
structure Course where
  hub : Hub
  /-- The games that were started and have not ended, each with its two clients. -/
  games : List (Nat × Nat)
  /-- The positions of the last request of each client. -/
  asked : Nat → List Position
  /-- The ticket that the last request of each client got. -/
  lastTicket : Nat → Nat
  /-- The tickets of each device whose answers were handed back, the latest first. -/
  returned : Nat → List Nat

namespace Hub

/-- Loads the model in a file onto a device, if the loader knows it. -/
def load (h : Hub) (i : Nat) (loader : Loader) (path : String) : Hub :=
  match (h.device i).load loader path with
  | .ok (_, d) => h.setDevice i d
  | .error _ => h

/-- Models that were loaded stay where they are. -/
theorem load_eq (h : Hub) (i : Nat) (loader : Loader) (path : String) :
    h.load i loader path = h ∨ ∃ models, (h.device i).models <+: models ∧
      h.load i loader path = h.setDevice i { h.device i with models } := by
  cases hload : (h.device i).load loader path with
  | error reason =>
    rw [load, hload]
    exact .inl rfl
  | ok loaded =>
    obtain ⟨key, d⟩ := loaded
    rw [load, hload]
    rcases Device.load_eq_ok hload with ⟨-, rfl⟩ | ⟨-, model, -, -, rfl⟩
    · exact .inr ⟨_, List.prefix_rfl, rfl⟩
    · exact .inr ⟨_, List.prefix_append _ _, rfl⟩

end Hub

namespace Course

/-- What may be done in a course. -/
inductive Act where
  | load (device : Nat) (loader : Loader) (path : String)
  | addClient (device : Nat) (key : ModelKey)
  | event (e : Event)

/-- Whether two clients play a live game. -/
def IsGame (c : Course) (a b : Nat) : Prop := (a, b) ∈ c.games ∨ (b, a) ∈ c.games

/-- Whether a client is in no live game. -/
def IsFree (c : Course) (x : Nat) : Prop := ∀ g ∈ c.games, g.1 ≠ x ∧ g.2 ≠ x

/-- Whether a client has nothing under way. -/
def IsIdle (c : Course) (x : Nat) : Prop := (c.hub.client x).phase = .idle

/-- What the threads of the games, and others, may do next. -/
def Allows (c : Course) : Act → Prop
  | .load _ _ _ => True
  | .addClient i key => ((c.hub.device i).modelName? key).isSome
  | .event (.startGame a b) =>
    a ≠ b ∧ a < c.hub.clients.size ∧ b < c.hub.clients.size ∧ c.IsFree a ∧ c.IsFree b
  | .event (.endGame a b) => c.IsGame a b ∧ c.IsIdle a ∧ c.IsIdle b
  | .event (.request x _) => ∃ y, c.IsGame x y ∧ c.IsIdle x ∧ c.IsIdle y
  | .event _ => True

/-- The live games without the one of a client. -/
def gamesWithout (c : Course) (x : Nat) : List (Nat × Nat) :=
  c.games.filter fun g => g.1 != x && g.2 != x

/-- The live games after an event. A game of clients of two devices ends when it has ended on
both. -/
def gamesAfter (c : Course) : Event → List (Nat × Nat)
  | .startGame a b => (a, b) :: c.games
  | .endGame a b =>
    if (c.hub.client a).device = (c.hub.client b).device then c.gamesWithout a else c.games
  | .proceed x =>
    match (c.hub.client x).phase with
    | .closing _ => c.gamesWithout x
    | _ => c.games
  | _ => c.games

/-- The last requests after an event. -/
def askedAfter (c : Course) : Event → Nat → List Position
  | .request x positions => Function.update c.asked x positions
  | _ => c.asked

/-- The ticket that a client holds, or is about to get. -/
def ticketOf? (c : Course) (x : Nat) : Option Nat :=
  match (c.hub.client x).phase with
  | .submitting _ => some (c.hub.device (c.hub.client x).device).nextTicket
  | phase => phase.ticket?

/-- The tickets of the last requests after an event. -/
def lastTicketAfter (c : Course) : Event → Nat → Nat
  | .proceed x =>
    match c.ticketOf? x with
    | some ticket => Function.update c.lastTicket x ticket
    | none => c.lastTicket
  | _ => c.lastTicket

/-- The returned tickets after a client with a ticket proceeded to a phase. -/
def giveBack (returned : Nat → List Nat) (i ticket : Nat) (p : Phase) : Nat → List Nat :=
  if p.hasAnswer then Function.update returned i (ticket :: returned i) else returned

/-- The returned tickets after a client proceeded and left a hub. -/
def returnedAfter (c : Course) (x : Nat) (hub : Hub) : Nat → List Nat :=
  match c.ticketOf? x with
  | some ticket => giveBack c.returned (c.hub.client x).device ticket (hub.client x).phase
  | none => c.returned

/-- The course after an event that left a hub. -/
def follow (c : Course) (e : Event) (hub : Hub) : Course where
  hub := hub
  games := c.gamesAfter e
  asked := c.askedAfter e
  lastTicket := c.lastTicketAfter e
  returned :=
    match e with
    | .proceed x => c.returnedAfter x hub
    | _ => c.returned

/-- The course after something was done, or the fault that it met. -/
def after (c : Course) : Act → Except Fault Course
  | .load i loader path => .ok { c with hub := c.hub.load i loader path }
  | .addClient i key => do
    let (_, hub) ← c.hub.addClient i key
    return { c with hub }
  | .event e => do return c.follow e (← c.hub.act e)

/-- A course of devices on which nothing has happened. -/
def start (devices : List Device) : Course where
  hub := .new devices
  games := []
  asked := fun _ => []
  lastTicket := fun _ => 0
  returned := fun _ => []

/-- The courses that may follow, with what was done on the way, the latest first. -/
inductive Run (origin : Course) : List Act → Course → Prop
  | rest : Run origin [] origin
  | act {acts : List Act} {c c' : Course} {a : Act} (run : Run origin acts c) (allowed : c.Allows a)
      (ok : c.after a = .ok c') : Run origin (a :: acts) c'

/-- Courses that can come about on some new devices. -/
def Reachable (c : Course) : Prop :=
  ∃ devices acts, (∀ d ∈ devices, ∃ name buffers, Device.new name buffers = .ok d) ∧
    Run (start devices) acts c

theorem Reachable.act {c c' : Course} (h : c.Reachable) {a : Act} (allowed : c.Allows a)
    (ok : c.after a = .ok c') : c'.Reachable := by
  obtain ⟨devices, acts, hnew, hrun⟩ := h
  exact ⟨devices, a :: acts, hnew, hrun.act allowed ok⟩

/-- What holds of new devices and is kept by whatever is allowed holds of every course. -/
theorem Reachable.induction {P : Course → Prop}
    (new : ∀ devices, (∀ d ∈ devices, ∃ name buffers, Device.new name buffers = .ok d) →
      P (start devices))
    (step : ∀ c a c', P c → c.Allows a → c.after a = .ok c' → P c') {c : Course}
    (h : c.Reachable) : P c := by
  obtain ⟨devices, acts, hnew, hrun⟩ := h
  induction hrun with
  | rest => exact new devices hnew
  | act _ allowed ok ih => exact step _ _ _ ih allowed ok

end Course

end Goban
