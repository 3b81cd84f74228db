import Goban.Proofs.Batch.Tickets

/-!
# Requests and their callers

Whatever a device holds under the ticket of a client is that client's: the request is for its model
and for the positions that it asked about last (`Routed`). Tickets are handed out once, so a new
request cannot be taken for an old one.
-/

namespace Goban

namespace Hub

/-- Whether a request for a device is pending or in a batch. -/
def Holds (h : Hub) (i : Nat) (r : Request) : Prop :=
  r ∈ (h.device i).pending ∨ (∃ x, (h.client x).device = i ∧ r ∈ (h.client x).phase.batch) ∨
    ∃ batch, (i, batch) ∈ h.flushes ∧ r ∈ batch

/-- What was true of devices and clients stays true, but for queues and phases. -/
structure Extends (h h' : Hub) : Prop where
  size : h'.clients.size = h.clients.size
  devices : h'.devices.size = h.devices.size
  client : ∀ x, (h'.client x).device = (h.client x).device ∧ (h'.client x).key = (h.client x).key
  device : ∀ i, (h.device i).models <+: (h'.device i).models ∧
    (h'.device i).name = (h.device i).name
  journal : h.journal ⊆ h'.journal

section Extends

variable {h : Hub} {i x : Nat}

theorem Extends.setDevice {d : Device} (models : (h.device i).models <+: d.models)
    (name : d.name = (h.device i).name) : h.Extends (h.setDevice i d) where
  size := rfl
  devices := size_setDevice h i d
  client _ := ⟨rfl, rfl⟩
  device j := by
    rcases device_setDevice_cases h i j d with hd | ⟨rfl, -, hd⟩
    · rw [hd]
      exact ⟨List.prefix_rfl, rfl⟩
    · rw [hd]
      exact ⟨models, name⟩
  journal := List.Subset.refl _

theorem Extends.changeClient {f : Client → Client}
    (same : (f (h.client x)).device = (h.client x).device ∧
      (f (h.client x)).key = (h.client x).key) :
    h.Extends (h.changeClient x f) where
  size := size_changeClient h x f
  devices := rfl
  client y := by
    rcases client_changeClient_cases h x y f with hc | ⟨rfl, -, hc⟩
    · rw [hc]
      exact ⟨rfl, rfl⟩
    · rw [hc]
      exact same
  device _ := ⟨List.prefix_rfl, rfl⟩
  journal := List.Subset.refl _

theorem Extends.wake (h : Hub) (i : Nat) : h.Extends (h.wake i) where
  size := size_wake h i
  devices := rfl
  client x := by
    rw [client_wake]
    exact ⟨Client.rouse_device _ i, Client.rouse_key _ i⟩
  device _ := ⟨List.prefix_rfl, rfl⟩
  journal := List.Subset.refl _

theorem Extends.measure (h : Hub) (ms : List Measurement) : h.Extends (h.measure ms) where
  size := rfl
  devices := rfl
  client _ := ⟨rfl, rfl⟩
  device _ := ⟨List.prefix_rfl, rfl⟩
  journal := List.subset_append_right _ _

theorem Extends.trans {h' h'' : Hub} (he : h.Extends h') (he' : h'.Extends h'') :
    h.Extends h'' where
  size := he'.size.trans he.size
  devices := he'.devices.trans he.devices
  client x := ⟨(he'.client x).1.trans (he.client x).1, (he'.client x).2.trans (he.client x).2⟩
  device i := ⟨(he.device i).1.trans (he'.device i).1, (he'.device i).2.trans (he.device i).2⟩
  journal := List.Subset.trans he.journal he'.journal

/-- Models that were loaded keep their keys. -/
theorem Extends.getElem?_models {h h' : Hub} (he : h.Extends h') {i : Nat} {key : ModelKey}
    {loaded : LoadedModel} (hloaded : (h.device i).models[key]? = some loaded) :
    (h'.device i).models[key]? = some loaded :=
  Device.getElem?_of_prefix (he.device i).1 hloaded

end Extends

/-- Every request in a queue or in a batch has an outstanding ticket. -/
theorem Holds.mem_outstanding {h : Hub} {i : Nat} {r : Request} (hr : h.Holds i r) :
    r.ticket ∈ h.outstanding i := by
  unfold outstanding
  simp only [Multiset.mem_add]
  rcases hr with hr | ⟨x, hd, hr⟩ | ⟨batch, hbatch, hr⟩
  · exact .inl (.inl (.inl (ticket_mem_tickets hr)))
  · refine .inl (.inl (.inr (mem_totalOn.mpr ⟨x, ?_, hd, ticket_mem_tickets hr⟩)))
    refine lt_size_of_ne_idle fun hidle => ?_
    rw [hidle] at hr
    cases hr
  · refine .inl (.inr (mem_sum_map.mpr ⟨_, hbatch, ?_⟩))
    rw [if_pos rfl]
    exact ticket_mem_tickets hr

theorem mem_outstanding_of_published {h : Hub} {i t : Nat} {answer : List Evaluation}
    (hmem : (t, answer) ∈ (h.device i).results) : t ∈ h.outstanding i :=
  Multiset.mem_add.mpr (.inr (Device.mem_published hmem))

end Hub

/-- All requests belong to the clients who wait for them. -/
structure Routed (h : Hub) (asked : Nat → List Position) : Prop where
  flushed : ∀ f ∈ h.flushes, f.1 < h.devices.size
  known : ∀ x < h.clients.size, (h.client x).key < (h.device (h.client x).device).models.length
  held : ∀ x t r, (h.client x).phase.ticket? = some t → h.Holds (h.client x).device r →
    r.ticket = t → r.key = (h.client x).key ∧ r.positions = asked x
  sending : ∀ x positions, (h.client x).phase = .leaving positions ∨
    (h.client x).phase = .submitting positions → asked x = positions

namespace Routed

variable {h h' : Hub} {asked : Nat → List Position} {returned : Nat → List Nat} {i x t : Nat}

/-- Nothing is routed anew: requests of before are for clients of before. -/
theorem keep (hr : Routed h asked) (he : h.Extends h')
    (flushed : ∀ f ∈ h'.flushes, f.1 < h.devices.size)
    (holds : ∀ i r, h'.Holds i r → h.Holds i r)
    (ticket : ∀ x t, (h'.client x).phase.ticket? = some t → (h.client x).phase.ticket? = some t)
    (sending : ∀ x positions, (h'.client x).phase = .leaving positions ∨
      (h'.client x).phase = .submitting positions → asked x = positions) : Routed h' asked := by
  refine ⟨he.devices ▸ flushed, fun x hx => ?_, fun x t r ht hheld hrt => ?_, sending⟩
  · rw [(he.client x).1, (he.client x).2]
    exact Nat.lt_of_lt_of_le (hr.known x (he.size ▸ hx)) (he.device _).1.length_le
  · rw [(he.client x).2]
    rw [(he.client x).1] at hheld
    exact hr.held x t r (ticket x t ht) (holds _ r hheld) hrt

/-- A device may change as long as nothing is added to its queue. -/
theorem setDevice (hr : Routed h asked) {d : Device} (models : (h.device i).models <+: d.models)
    (name : d.name = (h.device i).name) (pending : d.pending ⊆ (h.device i).pending) :
    Routed (h.setDevice i d) asked := by
  refine hr.keep (.setDevice models name) hr.flushed (fun j r hheld => ?_) (fun _ _ ht => ht)
    hr.sending
  refine hheld.imp_left fun hmem => ?_
  rcases Hub.device_setDevice_cases h i j d with hd | ⟨rfl, -, hd⟩
  · rwa [hd] at hmem
  · rw [hd] at hmem
    exact pending hmem

theorem measure (hr : Routed h asked) (ms : List Measurement) : Routed (h.measure ms) asked :=
  hr.keep (.measure h ms) hr.flushed (fun _ _ hheld => hheld) (fun _ _ ht => ht) hr.sending

/-- A client may change as long as it neither gets a ticket nor a batch. -/
theorem changeClient (hr : Routed h asked) {f : Client → Client}
    (same : (f (h.client x)).device = (h.client x).device ∧ (f (h.client x)).key = (h.client x).key)
    (ticket : ∀ t, (f (h.client x)).phase.ticket? = some t → (h.client x).phase.ticket? = some t)
    (batch : (f (h.client x)).phase.batch ⊆ (h.client x).phase.batch)
    (sending : ∀ positions, (f (h.client x)).phase = .leaving positions ∨
      (f (h.client x)).phase = .submitting positions → asked x = positions) :
    Routed (h.changeClient x f) asked := by
  refine hr.keep (.changeClient same) hr.flushed (fun j r hheld => ?_) (fun y t ht => ?_)
    fun y positions hp => ?_
  · refine hheld.imp_right (Or.imp_left ?_)
    rintro ⟨y, hy, hmem⟩
    rcases Hub.client_changeClient_cases h x y f with hc | ⟨rfl, -, hc⟩
    · rw [hc] at hy hmem
      exact ⟨y, hy, hmem⟩
    · rw [hc] at hy hmem
      exact ⟨y, same.1 ▸ hy, batch hmem⟩
  · rcases Hub.client_changeClient_cases h x y f with hc | ⟨rfl, -, hc⟩
    · rwa [hc] at ht
    · exact ticket t (hc ▸ ht)
  · rcases Hub.client_changeClient_cases h x y f with hc | ⟨rfl, -, hc⟩
    · exact hr.sending y positions (hc ▸ hp)
    · exact sending positions (hc ▸ hp)

theorem setPhase (hr : Routed h asked) {p : Phase}
    (ticket : ∀ t, p.ticket? = some t → (h.client x).phase.ticket? = some t)
    (batch : p.batch ⊆ (h.client x).phase.batch)
    (sending : ∀ positions, p = .leaving positions ∨ p = .submitting positions →
      asked x = positions) : Routed (h.setPhase x p) asked :=
  hr.changeClient ⟨rfl, rfl⟩ ticket batch sending

/-- A client that has nothing under way afterwards may change in any way. -/
theorem rest (hr : Routed h asked) {f : Client → Client} (x : Nat)
    (hf : ∀ c, (f c).device = c.device ∧ (f c).key = c.key ∧ (f c).phase.isUnderway = false) :
    Routed (h.changeClient x f) asked := by
  obtain ⟨hdevice, hkey, hp⟩ := hf (h.client x)
  refine hr.changeClient ⟨hdevice, hkey⟩ (fun t ht => ?_) ?_ fun ps hps => ?_
  · rw [Phase.ticket?_of_not_underway hp] at ht
    cases ht
  · rw [Phase.batch_of_not_underway hp]
    exact List.nil_subset _
  · rcases hps with hps | hps <;>
    · rw [hps] at hp
      cases hp

/-- A client that has nothing under way may ask for anything. -/
theorem ask (hr : Routed h asked) (hp : (h.client x).phase.isUnderway = false)
    (positions : List Position) : Routed h (Function.update asked x positions) := by
  have hno : ∀ {y}, (h.client y).phase.isUnderway = true →
      Function.update asked x positions y = asked y := fun {y} hy =>
    Function.update_of_ne (fun hyx => by rw [hyx, hp] at hy; cases hy) _ _
  refine ⟨hr.flushed, hr.known, fun y t r ht hheld hrt => ?_, fun y ps hps => ?_⟩
  · rw [hno (Phase.isUnderway_of_ticket? ht)]
    exact hr.held y t r ht hheld hrt
  · rw [hno (by rcases hps with hps | hps <;> rw [hps] <;> rfl)]
    exact hr.sending y ps hps

theorem wake (hr : Routed h asked) (i : Nat) : Routed (h.wake i) asked := by
  refine hr.keep (.wake h i) hr.flushed (fun j r hheld => ?_) (fun y t ht => ?_)
    fun y positions hp => ?_
  · refine hheld.imp_right (Or.imp_left ?_)
    rintro ⟨y, hy, hmem⟩
    rw [Hub.client_wake, Client.rouse_device] at hy
    rw [Hub.client_wake, Client.rouse_batch] at hmem
    exact ⟨y, hy, hmem⟩
  · rwa [Hub.client_wake, Client.rouse_ticket?] at ht
  · rw [Hub.client_wake, Client.rouse_phase_eq_iff i rfl, Client.rouse_phase_eq_iff i rfl] at hp
    exact hr.sending y positions hp

/-! ## The queue -/

/-- A new request is that of the client who gets its ticket. -/
theorem submit (hr : Routed h asked) (hk : Tickets h returned) {positions : List Position}
    (hp : (h.client x).phase = .submitting positions) (hx : x < h.clients.size)
    (hi : (h.client x).device < h.devices.size)
    {d : Device} (hsubmit : (h.device (h.client x).device).submit (h.client x).key positions =
      .ok (t, d)) :
    Routed ((h.setDevice (h.client x).device d).setPhase x (.awake t)) asked := by
  obtain ⟨-, ht, hd⟩ := Device.submit_eq_ok hsubmit
  have hclient : ∀ y, ((h.setDevice (h.client x).device d).setPhase x (.awake t)).client y =
      if y = x then { h.client x with phase := .awake t } else h.client y := fun y =>
    Hub.client_setPhase (h := h.setDevice (h.client x).device d) y hx _
  have hdevice : ∀ j, ((h.setDevice (h.client x).device d).setPhase x (.awake t)).device j =
      if j = (h.client x).device then d else h.device j := fun j => Hub.device_setDevice j d hi
  have he : h.Extends ((h.setDevice (h.client x).device d).setPhase x (.awake t)) :=
    .trans (.setDevice (by rw [hd]) (by rw [hd])) (.changeClient ⟨rfl, rfl⟩)
  have hticket : ∀ y s,
      (((h.setDevice (h.client x).device d).setPhase x (.awake t)).client y).phase.ticket? =
        some s → y = x ∧ s = t ∨ (h.client y).phase.ticket? = some s := fun y s hs => by
    rw [hclient] at hs
    split at hs
    · exact .inl ⟨‹_›, (Option.some.inj hs).symm⟩
    · exact .inr hs
  have hholds : ∀ j r, ((h.setDevice (h.client x).device d).setPhase x (.awake t)).Holds j r →
      h.Holds j r ∨ j = (h.client x).device ∧ r = ⟨t, (h.client x).key, positions⟩ := by
    rintro j r (hr | ⟨y, hy, hr⟩ | hr)
    · rw [hdevice] at hr
      split at hr
      · rename_i hj
        rw [hd, ← ht, List.mem_append, List.mem_singleton] at hr
        exact hr.imp (fun hr => .inl (hj ▸ hr)) fun hr => ⟨hj, hr⟩
      · exact .inl (.inl hr)
    · rw [hclient] at hy hr
      split at hr
      · cases hr
      · rename_i hyx
        rw [if_neg hyx] at hy
        exact .inl (.inr (.inl ⟨y, hy, hr⟩))
    · exact .inl (.inr (.inr hr))
  -- All tickets of before are smaller than the new one.
  have hfresh : ∀ s ∈ h.outstanding (h.client x).device, s ≠ t := fun s hs hst => by
    have := hk.lt_nextTicket hs
    omega
  refine ⟨he.devices ▸ hr.flushed, fun y hy => ?_, fun y s r hs hheld hrs => ?_,
    fun y ps hps => ?_⟩
  · rw [(he.client y).1, (he.client y).2]
    exact Nat.lt_of_lt_of_le (hr.known y (he.size ▸ hy)) (he.device _).1.length_le
  · rw [(he.client y).2]
    rw [(he.client y).1] at hheld
    rcases hticket y s hs with ⟨rfl, rfl⟩ | hs
    · rcases hholds _ r hheld with hold | ⟨-, rfl⟩
      · exact absurd hrs (hfresh _ hold.mem_outstanding)
      · exact ⟨rfl, (hr.sending y positions (.inr hp)).symm⟩
    · rcases hholds _ r hheld with hold | ⟨hj, rfl⟩
      · exact hr.held y s r hs hold hrs
      · exact absurd hrs.symm (hfresh s (hj ▸ hk.mem_outstanding hs))
  · rw [hclient] at hps
    split at hps
    · simp at hps
    · exact hr.sending y ps hps

/-- The requests that were pending are in a batch now. -/
theorem take (hr : Routed h asked) (hp : (h.client x).phase = .awake t) (hx : x < h.clients.size)
    (hi : (h.client x).device < h.devices.size) :
    Routed ((h.setDevice (h.client x).device (h.device (h.client x).device).taken).setPhase x
      (.running t (h.device (h.client x).device).pending)) asked := by
  have hclient : ∀ y,
      ((h.setDevice (h.client x).device (h.device (h.client x).device).taken).setPhase x
        (.running t (h.device (h.client x).device).pending)).client y =
      if y = x then { h.client x with phase := .running t (h.device (h.client x).device).pending }
      else h.client y := fun y =>
    Hub.client_setPhase (h := h.setDevice (h.client x).device _) y hx _
  have hdevice : ∀ j,
      ((h.setDevice (h.client x).device (h.device (h.client x).device).taken).setPhase x
        (.running t (h.device (h.client x).device).pending)).device j =
      if j = (h.client x).device then (h.device (h.client x).device).taken else h.device j :=
    fun j => Hub.device_setDevice j _ hi
  have he : h.Extends (h.setDevice (h.client x).device (h.device (h.client x).device).taken) :=
    .setDevice List.prefix_rfl rfl
  refine hr.keep (he.trans (.changeClient ⟨rfl, rfl⟩)) hr.flushed (fun j r hheld => ?_)
    (fun y s hs => ?_) fun y ps hps => ?_
  · rcases hheld with hmem | ⟨y, hy, hmem⟩ | hmem
    · rw [hdevice] at hmem
      split at hmem
      · cases hmem
      · exact .inl hmem
    · rw [hclient] at hy hmem
      split at hmem
      · rename_i hyx
        rw [if_pos hyx] at hy
        exact .inl (hy ▸ hmem)
      · rename_i hyx
        rw [if_neg hyx] at hy
        exact .inr (.inl ⟨y, hy, hmem⟩)
    · exact .inr (.inr hmem)
  · rw [hclient] at hs
    split at hs
    · rename_i hyx
      rw [hyx, hp]
      exact hs
    · exact hs
  · rw [hclient] at hps
    split at hps
    · simp at hps
    · exact hr.sending y ps hps

/-! ## Batches that are taken from outside -/

theorem flush (hr : Routed h asked) (i : Nat) : Routed (h.flush i) asked := by
  unfold Hub.flush
  simp only
  split
  · exact hr
  · rename_i hpending
    have hi : i < h.devices.size := by
      by_contra hi
      rw [Hub.device_of_le (Nat.not_lt.mp hi)] at hpending
      exact hpending rfl
    have he : h.Extends (h.setDevice i (h.device i).taken) := .setDevice List.prefix_rfl rfl
    have hdevice : ∀ j, (h.setDevice i (h.device i).taken).device j =
        if j = i then (h.device i).taken else h.device j := fun j => Hub.device_setDevice j _ hi
    refine hr.keep ⟨he.size, he.devices, he.client, he.device, he.journal⟩ (fun f hf => ?_)
      (fun j r hheld => ?_) (fun _ _ ht => ht) hr.sending
    · rcases List.mem_append.mp hf with hf | hf
      · exact hr.flushed f hf
      · rw [List.mem_singleton.mp hf]
        exact hi
    · rcases hheld with hmem | hmem | ⟨batch, hbatch, hmem⟩
      · have hj := hdevice j
        change r ∈ ((h.setDevice i (h.device i).taken).device j).pending at hmem
        rw [hj] at hmem
        split at hmem
        · cases hmem
        · exact .inl hmem
      · exact .inr (.inl hmem)
      · rcases List.mem_append.mp hbatch with hbatch | hbatch
        · exact .inr (.inr ⟨batch, hbatch, hmem⟩)
        · cases List.mem_singleton.mp hbatch
          exact .inl hmem

/-- A batch may be dropped when its answers are laid out. -/
theorem dropFlush (hr : Routed h asked) (k : Nat) :
    Routed { h with flushes := h.flushes.eraseIdx k } asked := by
  refine hr.keep ⟨rfl, rfl, fun _ => ⟨rfl, rfl⟩, fun _ => ⟨List.prefix_rfl, rfl⟩,
    List.Subset.refl _⟩ (fun f hf => hr.flushed f (List.mem_of_mem_eraseIdx hf))
      (fun j r hheld => ?_) (fun _ _ ht => ht) hr.sending
  rcases hheld with hmem | hmem | ⟨batch, hbatch, hmem⟩
  · exact .inl hmem
  · exact .inr (.inl hmem)
  · exact .inr (.inr ⟨batch, List.mem_of_mem_eraseIdx hbatch, hmem⟩)

/-! ## New clients -/

theorem addClient (hr : Routed h asked) {key : ModelKey} (hkey : key < (h.device i).models.length)
    (name : String) : Routed { h with
      clients := h.clients.push ⟨i, key, name, false, none, .idle⟩ } asked := by
  have hclient := fun y => Hub.client_push (h := h) ⟨i, key, name, false, none, .idle⟩ y
  have hold : ∀ {y}, (Hub.client { h with
      clients := h.clients.push ⟨i, key, name, false, none, .idle⟩ } y).phase.isUnderway = true →
      y ≠ h.clients.size := by
    rintro y hy rfl
    rw [hclient, if_pos rfl] at hy
    cases hy
  refine ⟨hr.flushed, fun y hy => ?_, fun y t r ht hheld hrt => ?_, fun y ps hps => ?_⟩
  · rw [hclient]
    split
    · exact hkey
    · refine hr.known y ?_
      simp only [Array.size_push] at hy
      omega
  · have hy := hold (Phase.isUnderway_of_ticket? ht)
    rw [hclient, if_neg hy] at ht hheld ⊢
    refine hr.held y t r ht (hheld.imp_right (Or.imp_left ?_)) hrt
    rintro ⟨z, hz, hmem⟩
    rw [hclient] at hz hmem
    split at hmem
    · cases hmem
    · rename_i hne
      rw [if_neg hne] at hz
      exact ⟨z, hz, hmem⟩
  · have hy := hold (y := y) (by rcases hps with hps | hps <;> rw [hps] <;> rfl)
    rw [hclient, if_neg hy] at hps
    exact hr.sending y ps hps

end Routed

end Goban
