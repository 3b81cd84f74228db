import Mathlib.Algebra.BigOperators.Group.Multiset.Basic
import Mathlib.Tactic.Abel
import Goban.Batch.Hub

/-!
# Devices and clients of a hub after a change

A hub is looked at through `Hub.device` and `Hub.client`. The lemmas of this file say what is seen
after each of the small changes that the events of a hub are made of, and how a sum over all clients
(`Hub.total`) changes with them.
-/

namespace Goban

/-! ## Phases -/

namespace Phase

/-- The ticket of the answer that a client waits for. -/
def ticket? : Phase → Option Nat
  | awake ticket | asleep ticket | running ticket _ => some ticket
  | _ => none

/-- The batch that a client runs. -/
def batch : Phase → List Request
  | running _ batch => batch
  | _ => []

/-- Whether the thread of a client counts as away on the other device of its game. -/
def isAway : Phase → Bool
  | submitting _ | awake _ | asleep _ | running _ _ | rejoining _ => true
  | _ => false

/-- Whether a client has its answer. -/
def hasAnswer : Phase → Bool
  | rejoining _ | answered _ => true
  | _ => false

/-- Whether a request is under way. -/
def isUnderway : Phase → Bool
  | idle | opening _ | closing _ | held => false
  | _ => true

theorem ticket?_of_not_underway {p : Phase} (h : p.isUnderway = false) : p.ticket? = none := by
  cases p <;> first | rfl | cases h

theorem batch_of_not_underway {p : Phase} (h : p.isUnderway = false) : p.batch = [] := by
  cases p <;> first | rfl | cases h

theorem isUnderway_of_ticket? {p : Phase} {t : Nat} (h : p.ticket? = some t) :
    p.isUnderway = true := by
  cases p <;> first | rfl | cases h

/-- The phase without the difference between waiting and sleeping. -/
def stirred : Phase → Phase
  | asleep ticket => awake ticket
  | phase => phase

@[simp] theorem ticket?_stirred (p : Phase) : p.stirred.ticket? = p.ticket? := by cases p <;> rfl

@[simp] theorem batch_stirred (p : Phase) : p.stirred.batch = p.batch := by cases p <;> rfl

@[simp] theorem isAway_stirred (p : Phase) : p.stirred.isAway = p.isAway := by cases p <;> rfl

end Phase

namespace Client

/-- The client without the difference between waiting and sleeping. -/
def stirred (c : Client) : Client := { c with phase := c.phase.stirred }

@[simp] theorem stirred_device (c : Client) : c.stirred.device = c.device := rfl

@[simp] theorem stirred_phase (c : Client) : c.stirred.phase = c.phase.stirred := rfl

@[simp] theorem stirred_stirred (c : Client) : c.stirred.stirred = c.stirred := by
  obtain ⟨_, _, _, _, _, phase⟩ := c
  cases phase <;> rfl

theorem device_eq_of_stirred {c c' : Client} (h : c'.stirred = c.stirred) :
    c'.device = c.device := by
  simpa using congrArg Client.device h

theorem rouse_eq (c : Client) (i : Nat) : c.rouse i = c ∨ c.rouse i = c.stirred := by
  unfold rouse
  split
  · rename_i ticket hp
    split
    · right
      simp [stirred, hp, Phase.stirred]
    · exact .inl rfl
  · exact .inl rfl

@[simp] theorem stirred_rouse (c : Client) (i : Nat) : (c.rouse i).stirred = c.stirred := by
  rcases c.rouse_eq i with h | h <;> simp [h]

@[simp] theorem rouse_device (c : Client) (i : Nat) : (c.rouse i).device = c.device := by
  rcases c.rouse_eq i with h | h <;> simp [h]

@[simp] theorem rouse_key (c : Client) (i : Nat) : (c.rouse i).key = c.key := by
  rcases c.rouse_eq i with h | h <;> simp [h, stirred]

@[simp] theorem rouse_opponentDevice (c : Client) (i : Nat) :
    (c.rouse i).opponentDevice = c.opponentDevice := by
  rcases c.rouse_eq i with h | h <;> simp [h, stirred]

@[simp] theorem rouse_ticket? (c : Client) (i : Nat) :
    (c.rouse i).phase.ticket? = c.phase.ticket? := by
  rcases c.rouse_eq i with h | h <;> simp [h]

@[simp] theorem rouse_batch (c : Client) (i : Nat) :
    (c.rouse i).phase.batch = c.phase.batch := by
  rcases c.rouse_eq i with h | h <;> simp [h]

theorem stirred_phase_eq_iff {c : Client} {p : Phase} (hp : p.ticket? = none) :
    c.stirred.phase = p ↔ c.phase = p := by
  obtain ⟨_, _, _, _, _, phase⟩ := c
  cases phase <;> simp only [stirred, Phase.stirred]
  constructor <;> rintro rfl <;> cases hp

theorem rouse_phase_eq_iff {c : Client} {p : Phase} (i : Nat) (hp : p.ticket? = none) :
    (c.rouse i).phase = p ↔ c.phase = p := by
  rw [← stirred_phase_eq_iff hp, stirred_rouse, stirred_phase_eq_iff hp]

theorem rouse_eq_self {c : Client} (i : Nat) (h : ∀ ticket, c.phase ≠ .asleep ticket) :
    c.rouse i = c := by
  unfold rouse
  split
  · exact absurd ‹_› (h _)
  · rfl

/-- Nobody sleeps until a change of a device that has just been made. -/
theorem rouse_phase_ne_asleep {c : Client} {i : Nat} (h : c.device = i) (ticket : Nat) :
    (c.rouse i).phase ≠ .asleep ticket := by
  unfold rouse
  split
  · simp [h]
  · rename_i hp
    exact hp ticket

theorem asleep_of_rouse {c : Client} {i ticket : Nat} (h : (c.rouse i).phase = .asleep ticket) :
    c.phase = .asleep ticket ∧ c.device ≠ i := by
  by_cases hi : c.device = i
  · exact absurd h (rouse_phase_ne_asleep hi ticket)
  · unfold rouse at h
    split at h <;> simp_all

end Client

/-! ## The queue of a device -/

namespace Device

variable {d d' : Device} {t : Nat}

theorem submit_eq_ok {key : ModelKey} {positions : List Position}
    (h : d.submit key positions = .ok (t, d')) :
    d.asking < d.live ∧ t = d.nextTicket ∧ d' = { d with
      nextTicket := d.nextTicket + 1
      asking := d.asking + 1
      pending := d.pending ++ [⟨d.nextTicket, key, positions⟩] } := by
  unfold submit at h
  split at h
  · rename_i hlt
    cases h
    exact ⟨hlt, rfl, rfl⟩
  · cases h

theorem collect?_eq_some {answer : List Evaluation} (h : d.collect? t = some (answer, d')) :
    (t, answer) ∈ d.results ∧
      d' = { d with results := d.results.filter (·.1 != t), asking := d.asking - 1 } := by
  unfold collect? at h
  split at h
  · rename_i t' answer' hfind
    have ht : t' = t := by simpa using List.find?_some hfind
    cases h
    exact ⟨ht ▸ List.mem_of_find?_eq_some hfind, rfl⟩
  · cases h

theorem collect?_eq_none (h : d.collect? t = none) (answer : List Evaluation) :
    (t, answer) ∉ d.results := by
  unfold collect? at h
  split at h
  · cases h
  · rename_i hfind
    intro hmem
    have := List.find?_eq_none.mp hfind _ hmem
    simp at this

theorem unregister_eq_ok (h : d.unregister = .ok d') :
    d.live ≠ 0 ∧ d' = { d with live := d.live - 1 } := by
  unfold unregister at h
  split at h
  · cases h
  · rename_i hlive
    simp only at h
    split at h
    · cases h
      exact ⟨hlive, rfl⟩
    · cases h

theorem leave_eq_ok (h : d.leave = .ok d') : d' = { d with away := d.away + 1 } := by
  unfold leave at h
  split at h
  · cases h
    rfl
  · cases h

theorem rejoin_eq_ok (h : d.rejoin = .ok d') :
    d.away ≠ 0 ∧ d' = { d with away := d.away - 1 } := by
  unfold rejoin at h
  split at h
  · cases h
  · cases h
    exact ⟨‹_›, rfl⟩

end Device

namespace Hub

/-! ## One device, one client -/

section Views

variable (h : Hub) (i j x y : Nat) (d : Device) (f : Client → Client)

@[simp] theorem client_setDevice : (h.setDevice i d).client x = h.client x := rfl

@[simp] theorem clients_setDevice : (h.setDevice i d).clients = h.clients := rfl

@[simp] theorem size_setDevice : (h.setDevice i d).devices.size = h.devices.size := by
  simp [setDevice]

@[simp] theorem device_changeClient : (h.changeClient x f).device i = h.device i := rfl

@[simp] theorem size_changeClient : (h.changeClient x f).clients.size = h.clients.size := by
  simp [changeClient]

@[simp] theorem device_wake : (h.wake i).device j = h.device j := rfl

@[simp] theorem devices_wake : (h.wake i).devices = h.devices := rfl

@[simp] theorem size_wake : (h.wake i).clients.size = h.clients.size := by simp [wake]

@[simp] theorem device_measure (ms : List Measurement) : (h.measure ms).device i = h.device i := rfl

@[simp] theorem devices_measure (ms : List Measurement) : (h.measure ms).devices = h.devices := rfl

@[simp] theorem client_measure (ms : List Measurement) : (h.measure ms).client x = h.client x := rfl

@[simp] theorem clients_measure (ms : List Measurement) : (h.measure ms).clients = h.clients := rfl

@[simp] theorem client_wake : (h.wake i).client x = (h.client x).rouse i := by
  have hd : (default : Client).rouse i = default := rfl
  simp only [wake, client, Array.getD_eq_getD_getElem?, List.getElem?_toArray, List.getElem?_map,
    Array.getElem?_toList]
  cases h.clients[x]? <;> simp [hd]

theorem device_setDevice_ne (hij : j ≠ i) : (h.setDevice i d).device j = h.device j := by
  simp [setDevice, device, Array.getD_eq_getD_getElem?, Array.getElem?_setIfInBounds_ne hij.symm]

theorem client_changeClient_ne (hxy : y ≠ x) : (h.changeClient x f).client y = h.client y := by
  simp [changeClient, client, Array.getD_eq_getD_getElem?, Array.getElem?_modify, hxy.symm]

theorem changeClient_of_le (hx : h.clients.size ≤ x) : h.changeClient x f = h := by
  have : h.clients.modify x f = h.clients := by
    apply Array.ext
    · simp
    · intro k _ hk
      exact Array.getElem_modify_of_ne (by omega) f _
  simp [changeClient, this]

theorem setDevice_of_le (hi : h.devices.size ≤ i) : h.setDevice i d = h := by
  simp [setDevice, Array.setIfInBounds, Nat.not_lt.mpr hi]

variable {h i x}

theorem device_setDevice_self (hi : i < h.devices.size) : (h.setDevice i d).device i = d := by
  simp [setDevice, device, Array.getD_eq_getD_getElem?, hi]

theorem client_changeClient_self (hx : x < h.clients.size) :
    (h.changeClient x f).client x = f (h.client x) := by
  simp [changeClient, client, Array.getD_eq_getD_getElem?, hx, Array.getElem_modify_self]

theorem device_setDevice (hi : i < h.devices.size) :
    (h.setDevice i d).device j = if j = i then d else h.device j := by
  split
  · subst j
    exact device_setDevice_self d hi
  · exact device_setDevice_ne h i j d ‹_›

theorem device_setDevice_cases (h : Hub) (i j : Nat) (d : Device) :
    (h.setDevice i d).device j = h.device j ∨
      j = i ∧ i < h.devices.size ∧ (h.setDevice i d).device j = d := by
  by_cases hi : i < h.devices.size
  · by_cases hj : j = i
    · subst hj
      exact .inr ⟨rfl, hi, device_setDevice_self d hi⟩
    · exact .inl (device_setDevice_ne h i j d hj)
  · exact .inl (by rw [setDevice_of_le h i d (Nat.not_lt.mp hi)])

theorem client_changeClient_cases (h : Hub) (x y : Nat) (f : Client → Client) :
    (h.changeClient x f).client y = h.client y ∨
      y = x ∧ x < h.clients.size ∧ (h.changeClient x f).client y = f (h.client x) := by
  by_cases hx : x < h.clients.size
  · by_cases hy : y = x
    · subst hy
      exact .inr ⟨rfl, hx, client_changeClient_self f hx⟩
    · exact .inl (client_changeClient_ne h x y f hy)
  · exact .inl (by rw [changeClient_of_le h x f (Nat.not_lt.mp hx)])

theorem client_changeClient (hx : x < h.clients.size) :
    (h.changeClient x f).client y = if y = x then f (h.client x) else h.client y := by
  split
  · subst y
    exact client_changeClient_self f hx
  · exact client_changeClient_ne h x y f ‹_›

theorem client_setPhase (hx : x < h.clients.size) (p : Phase) :
    (h.setPhase x p).client y = if y = x then { h.client x with phase := p } else h.client y :=
  client_changeClient y _ hx

theorem client_setPhase_self (hx : x < h.clients.size) (p : Phase) :
    (h.setPhase x p).client x = { h.client x with phase := p } :=
  client_changeClient_self _ hx

theorem phase_setPhase (hx : x < h.clients.size) (p : Phase) :
    ((h.setPhase x p).client x).phase = p := by
  rw [client_setPhase_self hx]

/-- Two clients change, and no other one. -/
theorem client_changeClient_pair {z : Nat} (hxz : x ≠ z) (hx : x < h.clients.size)
    (hz : z < h.clients.size) (f g : Client → Client) :
    ((h.changeClient x f).changeClient z g).client x = f (h.client x) ∧
      ((h.changeClient x f).changeClient z g).client z = g (h.client z) ∧
        ∀ y, y ≠ x → y ≠ z → ((h.changeClient x f).changeClient z g).client y = h.client y := by
  refine ⟨?_, ?_, fun y hyx hyz => ?_⟩
  · rw [client_changeClient_ne _ _ _ _ hxz, client_changeClient_self _ hx]
  · rw [client_changeClient_self _ (by simpa using hz), client_changeClient_ne _ _ _ _ hxz.symm]
  · rw [client_changeClient_ne _ _ _ _ hyz, client_changeClient_ne _ _ _ _ hyx]

theorem client_setPhase_pair {z : Nat} (hxz : x ≠ z) (hx : x < h.clients.size)
    (hz : z < h.clients.size) (p q : Phase) :
    ((h.setPhase x p).setPhase z q).client x = { h.client x with phase := p } ∧
      ((h.setPhase x p).setPhase z q).client z = { h.client z with phase := q } ∧
        ∀ y, y ≠ x → y ≠ z → ((h.setPhase x p).setPhase z q).client y = h.client y :=
  client_changeClient_pair hxz hx hz _ _

theorem setPhase_setPhase (h : Hub) (x : Nat) (p q : Phase) :
    (h.setPhase x p).setPhase x q = h.setPhase x q := by
  have hmodify : (h.clients.modify x fun c => { c with phase := p }).modify x
      (fun c => { c with phase := q }) = h.clients.modify x fun c => { c with phase := q } := by
    apply Array.ext
    · simp
    · intro k _ _
      simp only [Array.getElem_modify]
      split <;> rfl
  simp [setPhase, changeClient, hmodify]

theorem setDevice_setPhase (h : Hub) (i x : Nat) (d : Device) (p : Phase) :
    (h.setPhase x p).setDevice i d = (h.setDevice i d).setPhase x p := rfl

theorem wake_setPhase (h : Hub) (i x : Nat) {p : Phase} (hp : ∀ ticket, p ≠ .asleep ticket) :
    (h.setPhase x p).wake i = (h.wake i).setPhase x p := by
  have hrouse : ∀ c : Client, Client.rouse i { c with phase := p } = { c with phase := p } :=
    fun c => Client.rouse_eq_self i hp
  have hset : ∀ c : Client, { c with phase := p } = { Client.rouse i c with phase := p } := by
    intro c
    rcases c.rouse_eq i with hc | hc <;> rw [hc]
    rfl
  have hmodify :
      ((h.clients.modify x fun c => { c with phase := p }).toList.map (·.rouse i)).toArray =
      ((h.clients.toList.map (·.rouse i)).toArray).modify x fun c => { c with phase := p } := by
    apply Array.ext
    · simp
    · intro k _ _
      simp only [List.getElem_toArray, List.getElem_map, Array.getElem_toList, Array.getElem_modify]
      split
      · rw [hrouse, hset]
      · rfl
  simp only [setPhase, changeClient, wake, hmodify]

theorem client_of_le (hx : h.clients.size ≤ x) : h.client x = default := by
  simp [client, Array.getD_eq_getD_getElem?, hx]

/-- A client with something under way is one that the hub has. -/
theorem lt_size_of_ne_idle (hx : (h.client x).phase ≠ .idle) : x < h.clients.size := by
  by_contra hle
  rw [client_of_le (Nat.not_lt.mp hle)] at hx
  exact hx rfl

theorem device_of_le (hi : h.devices.size ≤ i) : h.device i = default := by
  simp [device, Array.getD_eq_getD_getElem?, hi]

end Views

/-! ## Opening and closing games -/

section Registration

variable {h h' : Hub} {a b i : Nat}

/-- A client that enters a game against another one. -/
def entered (c other : Client) : Client :=
  { c with
    inGame := true
    phase := .idle
    opponentDevice := if c.device = other.device then c.opponentDevice else some other.device }

/-- A client that leaves its game. -/
def exited (c : Client) : Client :=
  { c with inGame := false, phase := .idle, opponentDevice := none }

theorem register_eq (h : Hub) (i : Nat) :
    ∃ ms, h.register i = (h.setDevice i (h.device i).register).measure ms := ⟨_, rfl⟩

@[simp] theorem client_register (h : Hub) (i x : Nat) : (h.register i).client x = h.client x := rfl

theorem device_register (hi : i < h.devices.size) (j : Nat) :
    (h.register i).device j = if j = i then (h.device i).register else h.device j :=
  device_setDevice j _ hi

theorem unregister_eq_ok (hok : h.unregister i = .ok h') :
    ∃ d ms, (h.device i).unregister = .ok d ∧ h' = ((h.setDevice i d).measure ms).wake i := by
  unfold unregister at hok
  obtain ⟨d, hd, hok⟩ := bind_eq_ok hok
  exact ⟨d, _, hd, (Except.ok.inj hok).symm⟩

theorem client_enter (hab : a ≠ b) (ha : a < h.clients.size) (hb : b < h.clients.size) :
    (h.enter a b).client a = entered (h.client a) (h.client b) ∧
      (h.enter a b).client b = entered (h.client b) (h.client a) ∧
        ∀ z, z ≠ a → z ≠ b → (h.enter a b).client z = h.client z := by
  unfold enter entered
  simp only
  refine ⟨(client_changeClient_pair hab ha hb _ _).1.trans ?_,
    (client_changeClient_pair hab ha hb _ _).2.1.trans ?_,
    (client_changeClient_pair hab ha hb _ _).2.2⟩
  · split <;> rfl
  · split
    · rename_i hd
      rw [if_pos hd.symm]
    · rename_i hd
      rw [if_neg (Ne.symm hd)]

theorem client_exit (hab : a ≠ b) (ha : a < h.clients.size) (hb : b < h.clients.size) :
    (h.exit a b).client a = exited (h.client a) ∧ (h.exit a b).client b = exited (h.client b) ∧
      ∀ z, z ≠ a → z ≠ b → (h.exit a b).client z = h.client z :=
  client_changeClient_pair hab ha hb _ _

@[simp] theorem device_enter (h : Hub) (a b i : Nat) : (h.enter a b).device i = h.device i := rfl

@[simp] theorem device_exit (h : Hub) (a b i : Nat) : (h.exit a b).device i = h.device i := rfl

@[simp] theorem size_enter (h : Hub) (a b : Nat) :
    (h.enter a b).clients.size = h.clients.size := by simp [enter]

@[simp] theorem size_exit (h : Hub) (a b : Nat) :
    (h.exit a b).clients.size = h.clients.size := by simp [exit]

/-- Entering a game changes two clients, who have nothing under way afterwards. -/
theorem enter_eq (h : Hub) (a b : Nat) :
    ∃ f g : Client → Client, h.enter a b = (h.changeClient a f).changeClient b g ∧
      ∀ c, ((f c).device = c.device ∧ (f c).key = c.key ∧ (f c).phase = .idle) ∧
        (g c).device = c.device ∧ (g c).key = c.key ∧ (g c).phase = .idle := by
  refine ⟨_, _, rfl, fun c => ⟨?_, ?_⟩⟩ <;> split <;> exact ⟨rfl, rfl, rfl⟩

theorem exit_eq (h : Hub) (a b : Nat) :
    ∃ f g : Client → Client, h.exit a b = (h.changeClient a f).changeClient b g ∧
      ∀ c, ((f c).device = c.device ∧ (f c).key = c.key ∧ (f c).phase = .idle) ∧
        (g c).device = c.device ∧ (g c).key = c.key ∧ (g c).phase = .idle :=
  ⟨_, _, rfl, fun _ => ⟨⟨rfl, rfl, rfl⟩, rfl, rfl, rfl⟩⟩

/-- A game of clients of one device starts at once; otherwise it is opened on the first device. -/
theorem startGame_eq_ok (hok : h.startGame a b = .ok h') :
    (h.client a).device = (h.client b).device ∧ h' = (h.register (h.client a).device).enter a b ∨
      (h.client a).device ≠ (h.client b).device ∧
        h' = ((h.register (h.client a).device).setPhase a (.opening b)).setPhase b .held := by
  unfold startGame at hok
  simp only at hok
  split at hok
  · cases hok
  · split at hok
    · exact .inl ⟨‹_›, (Except.ok.inj hok).symm⟩
    · exact .inr ⟨‹_›, (Except.ok.inj hok).symm⟩

/-- A game of clients of one device ends at once; otherwise it is closed on the first device. -/
theorem endGame_eq_ok (hok : h.endGame a b = .ok h') :
    ∃ hub, h.unregister (h.client a).device = .ok hub ∧
      ((h.client a).device = (h.client b).device ∧ h' = hub.exit a b ∨
        (h.client a).device ≠ (h.client b).device ∧
          h' = (hub.setPhase a (.closing b)).setPhase b .held) := by
  unfold endGame at hok
  simp only at hok
  split at hok
  · cases hok
  · obtain ⟨hub, hun, hok⟩ := bind_eq_ok hok
    refine ⟨hub, hun, ?_⟩
    change (if _ then _ else _) = _ at hok
    split at hok
    · exact .inl ⟨‹_›, (Except.ok.inj hok).symm⟩
    · exact .inr ⟨‹_›, (Except.ok.inj hok).symm⟩

end Registration

/-! ## Clients and models are added -/

section Adding

variable {h h' : Hub} {i x : Nat}

theorem addClient_eq_ok {key : ModelKey} (hok : h.addClient i key = .ok (x, h')) :
    key < (h.device i).models.length ∧ ∃ name, h' = { h with
      clients := h.clients.push ⟨i, key, name, false, none, .idle⟩ } := by
  unfold addClient at hok
  split at hok
  · cases hok
  · rename_i name hname
    cases hok
    refine ⟨?_, name, rfl⟩
    rw [Device.modelName?] at hname
    by_contra hlt
    rw [List.getElem?_eq_none (Nat.not_lt.mp hlt)] at hname
    cases hname

theorem client_push (c : Client) (x : Nat) :
    client { h with clients := h.clients.push c } x =
      if x = h.clients.size then c else h.client x := by
  simp only [client, Array.getD_eq_getD_getElem?, Array.getElem?_push]
  split <;> rfl

end Adding

/-! ## Runs of batches -/

section RunBatch

variable {h h' : Hub} {i : Nat} {batch : List Request}

/-- The calls of a run, as they are measured. -/
def callsOf (name : String) (run : Device.BatchRun) : List Measurement :=
  run.calls.map fun (path, positions) => .call name path positions

theorem mem_callsOf {name : String} {run : Device.BatchRun} {call : String × List Position}
    (hcall : call ∈ run.calls) : .call name call.1 call.2 ∈ callsOf name run :=
  List.mem_map_of_mem (f := fun (path, positions) => Measurement.call name path positions) hcall

theorem runBatch_eq_ok (hok : h.runBatch i batch = .ok h') :
    ∃ run, Device.runBatch (h.device i).models batch = .ok run ∧
      h' = ((h.measure (callsOf (h.device i).name run)).setDevice i
        ((h.device i).publish run)).wake i := by
  unfold runBatch at hok
  simp only at hok
  obtain ⟨run, hrun, hok⟩ := bind_eq_ok hok
  exact ⟨run, hrun, (Except.ok.inj hok).symm⟩

theorem runBatch_eq_error {fault : Fault} (hfault : h.runBatch i batch = .error fault) :
    Device.runBatch (h.device i).models batch = .error fault := by
  unfold runBatch at hfault
  simp only at hfault
  cases hrun : Device.runBatch (h.device i).models batch with
  | error fault' =>
    rw [hrun] at hfault
    cases hfault
    rfl
  | ok run =>
    rw [hrun] at hfault
    cases hfault

end RunBatch

/-! ## Asking, and looking for an answer -/

section Look

/-- The phase of a client after a request. -/
def afterAsking (c : Client) (positions : List Position) : Phase :=
  if positions.isEmpty then .answered []
  else if c.opponentDevice.isSome then .leaving positions else .submitting positions

theorem request_eq (h : Hub) (x : Nat) (positions : List Position) :
    h.request x positions =
      if (h.client x).inGame then .ok (h.setPhase x (afterAsking (h.client x) positions))
      else .error (.outsideGame (h.client x).name) := by
  simp only [request, afterAsking]
  cases hin : (h.client x).inGame
  · simp
  · cases positions <;> simp

variable (h : Hub) (x t : Nat)

/-- The phase of a client that has got its answer. -/
def afterCollecting (c : Client) (answer : List Evaluation) : Phase :=
  if c.opponentDevice.isSome then .rejoining answer else .answered answer

/-- With the lock, a client collects its answer, takes a batch, or falls asleep. -/
theorem look_cases :
    (∃ answer d, (h.device (h.client x).device).collect? t = some (answer, d) ∧
      h.look x t = (h.setDevice (h.client x).device d).setPhase x
        (afterCollecting (h.client x) answer)) ∨
    ((h.device (h.client x).device).collect? t = none ∧
      (h.device (h.client x).device).isReady = true ∧
      h.look x t = (h.setDevice (h.client x).device (h.device (h.client x).device).taken).setPhase x
        (.running t (h.device (h.client x).device).pending)) ∨
    ((h.device (h.client x).device).collect? t = none ∧
      (h.device (h.client x).device).isReady = false ∧ h.look x t = h.setPhase x (.asleep t)) := by
  unfold look
  simp only
  split
  · rename_i answer d hc
    exact .inl ⟨answer, d, hc, rfl⟩
  · rename_i hc
    split
    · exact .inr (.inl ⟨hc, ‹_›, rfl⟩)
    · rename_i hready
      exact .inr (.inr ⟨hc, by simpa using hready, rfl⟩)

/-- What a client looks for does not depend on its phase. -/
theorem look_setPhase (p : Phase) : (h.setPhase x p).look x t = h.look x t := by
  by_cases hx : x < h.clients.size
  · have hclient : (h.setPhase x p).client x = { h.client x with phase := p } :=
      client_changeClient_self _ hx
    have hdevice : ∀ i, (h.setPhase x p).device i = h.device i := fun _ => rfl
    unfold look
    simp only [hclient, hdevice, setDevice_setPhase, setPhase_setPhase]
  · rw [setPhase, h.changeClient_of_le x _ (Nat.not_lt.mp hx)]

end Look

/-! ## What an event does -/

section Events

variable {h h' : Hub} {x : Nat}

/-- What a client does that proceeds, by its phase. -/
inductive Proceeds (h : Hub) (x : Nat) : Hub → Prop where
  | leave {positions : List Position} {d : Device} (phase : (h.client x).phase = .leaving positions)
      (ok : (h.device ((h.client x).opponentDevice.getD (h.client x).device)).leave = .ok d) :
      Proceeds h x (((h.setDevice ((h.client x).opponentDevice.getD (h.client x).device) d).wake
        ((h.client x).opponentDevice.getD (h.client x).device)).setPhase x (.submitting positions))
  | submit {positions : List Position} {t : Nat} {d : Device}
      (phase : (h.client x).phase = .submitting positions)
      (ok : (h.device (h.client x).device).submit (h.client x).key positions = .ok (t, d)) :
      Proceeds h x ((h.setDevice (h.client x).device d).look x t)
  | look {t : Nat} (phase : (h.client x).phase = .awake t) : Proceeds h x (h.look x t)
  | run {t : Nat} {batch : List Request} {hub : Hub} (phase : (h.client x).phase = .running t batch)
      (ok : h.runBatch (h.client x).device batch = .ok hub) : Proceeds h x (hub.look x t)
  | rejoin {answer : List Evaluation} {d : Device} (phase : (h.client x).phase = .rejoining answer)
      (ok : (h.device ((h.client x).opponentDevice.getD (h.client x).device)).rejoin = .ok d) :
      Proceeds h x ((h.setDevice ((h.client x).opponentDevice.getD (h.client x).device) d).setPhase
        x (.answered answer))
  | opening {y : Nat} (phase : (h.client x).phase = .opening y) :
      Proceeds h x ((h.register (h.client y).device).enter x y)
  | closing {y : Nat} {hub : Hub} (phase : (h.client x).phase = .closing y)
      (ok : h.unregister (h.client y).device = .ok hub) : Proceeds h x (hub.exit x y)
  | rest (phase : (h.client x).phase = .idle ∨ (∃ t, (h.client x).phase = .asleep t) ∨
      (∃ answer, (h.client x).phase = .answered answer) ∨ (h.client x).phase = .held) :
      Proceeds h x h

theorem proceed_eq_ok (hok : h.proceed x = .ok h') : h.Proceeds x h' := by
  unfold proceed at hok
  simp only at hok
  split at hok
  · rename_i positions hp
    obtain ⟨d, hd, hok⟩ := bind_eq_ok hok
    cases hok
    exact .leave hp hd
  · rename_i positions hp
    obtain ⟨made, hd, hok⟩ := bind_eq_ok hok
    cases hok
    exact .submit hp hd
  · cases hok
    exact .look ‹_›
  · rename_i t batch hp
    obtain ⟨hub, hrun, hok⟩ := bind_eq_ok hok
    cases hok
    exact .run hp hrun
  · rename_i answer hp
    obtain ⟨d, hd, hok⟩ := bind_eq_ok hok
    cases hok
    exact .rejoin hp hd
  · cases hok
    exact .opening ‹_›
  · rename_i partner hp
    obtain ⟨hub, hun, hok⟩ := bind_eq_ok hok
    cases hok
    exact .closing hp hun
  · cases hok
    exact .rest (.inl ‹_›)
  · cases hok
    exact .rest (.inr (.inl ⟨_, ‹_›⟩))
  · cases hok
    exact .rest (.inr (.inr (.inl ⟨_, ‹_›⟩)))
  · cases hok
    exact .rest (.inr (.inr (.inr ‹_›)))

theorem act_request_eq_ok {positions : List Position}
    (hok : h.act (.request x positions) = .ok h') :
    h' = h.setPhase x (afterAsking (h.client x) positions) := by
  simp only [act, request_eq] at hok
  split at hok
  · exact (Except.ok.inj hok).symm
  · cases hok

theorem act_collect_eq_ok (hok : h.act (.collect x) = .ok h') :
    h' = h ∨ ∃ answer, (h.client x).phase = .answered answer ∧ h' = h.setPhase x .idle := by
  simp only [act, collect?] at hok
  split at hok
  · rename_i hp
    split at hp
    · cases hp
      exact .inr ⟨_, ‹_›, (Except.ok.inj hok).symm⟩
    · cases hp
  · exact .inl (Except.ok.inj hok).symm

end Events

/-! ## Sums over all clients -/

section Total

variable {M : Type} [AddCommMonoid M]

/-- The sum of a quantity over all clients. -/
def total (h : Hub) (q : Client → M) : M := (h.clients.toList.map q).sum

theorem sum_map_modify {α : Type} (q : α → M) (f : α → α) :
    ∀ (l : List α) (k : Nat) (hk : k < l.length),
      ((l.modify k f).map q).sum + q l[k] = (l.map q).sum + q (f l[k]) := by
  intro l
  induction l with
  | nil => intro k hk; cases hk
  | cons a l ih =>
    intro k hk
    cases k with
    | zero =>
      simp only [List.modify_zero_cons, List.map_cons, List.sum_cons, List.getElem_cons_zero]
      abel
    | succ k =>
      simp only [List.modify_succ_cons, List.map_cons, List.sum_cons, List.getElem_cons_succ,
        add_assoc]
      rw [ih k (by simpa using hk)]

variable (h : Hub) (q : Client → M)

/-- A quantity that does not tell sleeping from waiting is not changed by waking. -/
theorem total_wake (i : Nat) (hq : ∀ c : Client, q (c.rouse i) = q c) :
    (h.wake i).total q = h.total q := by
  simp only [total, wake, List.map_map]
  congr 1
  exact List.map_congr_left fun c _ => hq c

theorem total_changeClient {x : Nat} (hx : x < h.clients.size) (f : Client → Client) :
    (h.changeClient x f).total q + q (h.client x) = h.total q + q (f (h.client x)) := by
  have hc : h.client x = h.clients.toList[x] := by
    simp [client, Array.getD_eq_getD_getElem?, hx]
  simp only [total, changeClient, Array.toList_modify, hc]
  exact sum_map_modify q f _ x (by simpa using hx)

theorem total_setPhase {x : Nat} (hx : x < h.clients.size) (p : Phase) :
    (h.setPhase x p).total q + q (h.client x) =
      h.total q + q { h.client x with phase := p } :=
  h.total_changeClient q hx _

/-- A change of one client that leaves its quantity as it is leaves the sum as it is. -/
theorem total_changeClient_of_eq [IsCancelAdd M] (x : Nat) (f : Client → Client)
    (hq : q (f (h.client x)) = q (h.client x)) : (h.changeClient x f).total q = h.total q := by
  by_cases hx : x < h.clients.size
  · have := h.total_changeClient q hx f
    rw [hq] at this
    exact add_right_cancel this
  · rw [h.changeClient_of_le x f (Nat.not_lt.mp hx)]

/-- The sum over the clients of a device of a quantity of their phases. -/
def totalOn (h : Hub) (i : Nat) (f : Phase → M) : M :=
  h.total fun c => if c.device = i then f c.phase else 0

section TotalOn

variable {h} {f : Phase → M} {x : Nat} {p : Phase}

theorem totalOn_wake (hf : ∀ p, f p.stirred = f p) (i j : Nat) :
    (h.wake j).totalOn i f = h.totalOn i f := by
  refine h.total_wake _ j fun c => ?_
  rw [Client.rouse_device]
  rcases c.rouse_eq j with hc | hc <;> simp [hc, hf]

theorem totalOn_setPhase (hx : x < h.clients.size) (i : Nat) :
    (h.setPhase x p).totalOn i f + (if (h.client x).device = i then f (h.client x).phase else 0) =
      h.totalOn i f + if (h.client x).device = i then f p else 0 :=
  h.total_setPhase _ hx p

theorem totalOn_setDevice_setPhase (hx : x < h.clients.size) (i : Nat) (d : Device) (j : Nat) :
    ((h.setDevice i d).setPhase x p).totalOn j f +
        (if (h.client x).device = j then f (h.client x).phase else 0) =
      h.totalOn j f + if (h.client x).device = j then f p else 0 :=
  totalOn_setPhase (h := h.setDevice i d) hx j

theorem totalOn_setPhase_to_zero [IsCancelAdd M] (hx : x < h.clients.size) (hzero : f p = 0)
    (i : Nat) :
    (h.setPhase x p).totalOn i f + (if (h.client x).device = i then f (h.client x).phase else 0) =
      h.totalOn i f := by
  have hsum := totalOn_setPhase (f := f) (p := p) hx i
  rwa [hzero, ite_self, add_zero] at hsum

end TotalOn

theorem mem_sum_map {α β : Type} {q : α → Multiset β} {l : List α} {b : β} :
    b ∈ (l.map q).sum ↔ ∃ a ∈ l, b ∈ q a := by
  induction l with
  | nil => simp
  | cons a l ih => simp [ih]

theorem mem_totalOn {α : Type} {h : Hub} {i : Nat} {f : Phase → Multiset α} {a : α} :
    a ∈ h.totalOn i f ↔
      ∃ x < h.clients.size, (h.client x).device = i ∧ a ∈ f (h.client x).phase := by
  unfold totalOn total
  rw [mem_sum_map]
  constructor
  · rintro ⟨c, hc, ha⟩
    obtain ⟨x, hx, rfl⟩ := List.getElem_of_mem hc
    have hx' : x < h.clients.size := by simpa using hx
    have hclient : h.client x = h.clients.toList[x] := by
      simp [client, Array.getD_eq_getD_getElem?, hx']
    by_cases hd : (h.client x).device = i
    · rw [← hclient, if_pos hd] at ha
      exact ⟨x, hx', hd, ha⟩
    · rw [← hclient, if_neg hd] at ha
      simp at ha
  · rintro ⟨x, hx, hd, ha⟩
    have hmem : h.client x ∈ h.clients.toList := by
      have hclient : h.client x = h.clients[x] := by simp [client, Array.getD_eq_getD_getElem?, hx]
      rw [hclient, Array.mem_toList_iff]
      exact Array.getElem_mem hx
    refine ⟨h.client x, hmem, ?_⟩
    rw [if_pos hd]
    exact ha

end Total

end Hub

end Goban
