import Mathlib.Data.Multiset.Range
import Mathlib.Tactic.Abel
import Goban.Proofs.Batch.Answers
import Goban.Proofs.Batch.Course

/-!
# The tickets of a device

A ticket is outstanding while its request is pending, in a batch, or answered and not collected.
The tickets that a device has handed out are those outstanding and those returned, each once, and
the outstanding ones are exactly those that its clients wait for (`Tickets`). Each operation on the
queue of a device keeps this: requests are added, taken together, answered together, and collected
one by one.
-/

namespace Goban

/-- The tickets of some requests. -/
def tickets (requests : List Request) : Multiset Nat := (requests.map (·.ticket) : List Nat)

@[simp] theorem tickets_nil : tickets [] = 0 := rfl

@[simp] theorem tickets_append (rs ss : List Request) :
    tickets (rs ++ ss) = tickets rs + tickets ss := by
  simp [tickets]

@[simp] theorem tickets_singleton (r : Request) : tickets [r] = {r.ticket} := rfl

@[simp] theorem card_tickets (rs : List Request) : (tickets rs).card = rs.length := by
  simp [tickets]

theorem ticket_mem_tickets {rs : List Request} {r : Request} (hr : r ∈ rs) :
    r.ticket ∈ tickets rs :=
  List.mem_map_of_mem hr

namespace Phase

/-- The tickets in the batch that a client runs. -/
def taken (p : Phase) : Multiset Nat := tickets p.batch

/-- The ticket that a client waits with, if there is one. -/
def awaited (p : Phase) : Multiset Nat := (p.ticket?.toList : List Nat)

@[simp] theorem taken_stirred (p : Phase) : p.stirred.taken = p.taken := by simp [taken]

@[simp] theorem awaited_stirred (p : Phase) : p.stirred.awaited = p.awaited := by simp [awaited]

@[simp] theorem taken_awake (t : Nat) : (awake t).taken = 0 := rfl

@[simp] theorem taken_running (t : Nat) (batch : List Request) :
    (running t batch).taken = tickets batch := rfl

@[simp] theorem awaited_awake (t : Nat) : (awake t).awaited = {t} := rfl

@[simp] theorem awaited_running (t : Nat) (batch : List Request) :
    (running t batch).awaited = {t} := rfl

theorem taken_eq_zero {p : Phase} (h : p.batch = []) : p.taken = 0 := by rw [taken, h, tickets_nil]

theorem awaited_eq_zero {p : Phase} (h : p.ticket? = none) : p.awaited = 0 := by
  rw [awaited, h]
  rfl

theorem mem_awaited {p : Phase} {t : Nat} : t ∈ p.awaited ↔ p.ticket? = some t := by
  simp [awaited]

end Phase

namespace Device

/-- The tickets of the answers that are laid out. -/
def published (d : Device) : Multiset Nat := (d.results.map (·.1) : List Nat)

theorem mem_published {d : Device} {t : Nat} {answer : List Evaluation}
    (h : (t, answer) ∈ d.results) :
    t ∈ d.published := List.mem_map_of_mem (f := Prod.fst) h

/-- Among the answers laid out there is one for each ticket, and the filter takes it away. -/
theorem published_filter {d : Device} {t : Nat} {answer : List Evaluation}
    (nodup : d.published.Nodup) (mem : (t, answer) ∈ d.results) :
    d.published = t ::ₘ ((d.results.filter (·.1 != t)).map (·.1) : List Nat) := by
  rw [← Multiset.cons_erase (mem_published mem)]
  congr 1
  have hlist : (d.results.map (·.1)).Nodup := Multiset.coe_nodup.mp nodup
  have herase := hlist.erase_eq_filter t
  rw [published, Multiset.coe_erase, herase, List.filter_map]
  rfl

end Device

namespace Hub

/-- The tickets of a device in batches that were taken from outside. -/
def flushedOn (h : Hub) (i : Nat) : Multiset Nat :=
  (h.flushes.map fun f => if f.1 = i then tickets f.2 else 0).sum

/-- The tickets of a device whose answers have not been returned. -/
def outstanding (h : Hub) (i : Nat) : Multiset Nat :=
  tickets (h.device i).pending + h.totalOn i Phase.taken + h.flushedOn i + (h.device i).published

end Hub

/-- Where the tickets of all devices are. -/
structure Tickets (h : Hub) (returned : Nat → List Nat) : Prop where
  issued : ∀ i, h.outstanding i + (returned i : Multiset Nat) = .range (h.device i).nextTicket
  awaited : ∀ i, h.totalOn i Phase.awaited = h.outstanding i
  asking : ∀ i, (h.device i).asking = (h.outstanding i).card

namespace Tickets

variable {h h' : Hub} {returned : Nat → List Nat} {i x y t : Nat} {p : Phase}

/-! ## What a client waits for -/

theorem nodup (hk : Tickets h returned) (i : Nat) : (h.outstanding i).Nodup := by
  have hrange := Multiset.nodup_range (h.device i).nextTicket
  rw [← hk.issued] at hrange
  exact (Multiset.nodup_add.mp hrange).1

theorem nodup_published (hk : Tickets h returned) (i : Nat) : (h.device i).published.Nodup := by
  have hnodup := hk.nodup i
  unfold Hub.outstanding at hnodup
  exact (Multiset.nodup_add.mp hnodup).2.1

theorem lt_nextTicket (hk : Tickets h returned) (ht : t ∈ h.outstanding i) :
    t < (h.device i).nextTicket := by
  have hmem : t ∈ h.outstanding i + (returned i : Multiset Nat) := Multiset.mem_add.mpr (.inl ht)
  rwa [hk.issued, Multiset.mem_range] at hmem

theorem known_of_ticket? (ht : (h.client x).phase.ticket? = some t) : x < h.clients.size := by
  refine Hub.lt_size_of_ne_idle fun hidle => ?_
  rw [hidle] at ht
  cases ht

/-- A client waits for an outstanding ticket. -/
theorem mem_outstanding (hk : Tickets h returned) (ht : (h.client x).phase.ticket? = some t) :
    t ∈ h.outstanding (h.client x).device := by
  rw [← hk.awaited, Hub.mem_totalOn]
  exact ⟨x, known_of_ticket? ht, rfl, Phase.mem_awaited.mpr ht⟩

/-- Every outstanding ticket has a client that waits for it. -/
theorem exists_owner (hk : Tickets h returned) (ht : t ∈ h.outstanding i) :
    ∃ x, (h.client x).device = i ∧ (h.client x).phase.ticket? = some t := by
  rw [← hk.awaited, Hub.mem_totalOn] at ht
  obtain ⟨x, -, hd, ht⟩ := ht
  exact ⟨x, hd, Phase.mem_awaited.mp ht⟩

/-! ## Operations -/

theorem calm (hk : Tickets h returned) (outstanding : ∀ i, h'.outstanding i = h.outstanding i)
    (awaited : ∀ i, h'.totalOn i Phase.awaited = h.totalOn i Phase.awaited)
    (counts : ∀ i, (h'.device i).nextTicket = (h.device i).nextTicket ∧
      (h'.device i).asking = (h.device i).asking) : Tickets h' returned where
  issued i := by rw [outstanding, (counts i).1, hk.issued]
  awaited i := by rw [outstanding, awaited, hk.awaited]
  asking i := by rw [outstanding, (counts i).2, hk.asking]

/-- A client may change as long as it neither gets nor loses a ticket. -/
theorem changeClient (hk : Tickets h returned) {f : Client → Client}
    (hdevice : (f (h.client x)).device = (h.client x).device)
    (hticket : (f (h.client x)).phase.ticket? = (h.client x).phase.ticket?)
    (hbatch : (f (h.client x)).phase.batch = (h.client x).phase.batch) :
    Tickets (h.changeClient x f) returned := by
  have htaken : ∀ i, (h.changeClient x f).totalOn i Phase.taken = h.totalOn i Phase.taken :=
    fun i => h.total_changeClient_of_eq _ x f (by simp only [hdevice, Phase.taken, hbatch])
  have hawaited : ∀ i, (h.changeClient x f).totalOn i Phase.awaited = h.totalOn i Phase.awaited :=
    fun i => h.total_changeClient_of_eq _ x f (by simp only [hdevice, Phase.awaited, hticket])
  refine hk.calm (fun i => ?_) hawaited fun i => ⟨rfl, rfl⟩
  unfold Hub.outstanding
  rw [htaken]
  rfl

/-- A client that has nothing under way, before and after, may change. -/
theorem rest (hk : Tickets h returned) {f : Client → Client}
    (hp : (h.client x).phase.isUnderway = false)
    (hf : ∀ c, (f c).device = c.device ∧ (f c).phase.isUnderway = false) :
    Tickets (h.changeClient x f) returned := by
  obtain ⟨hdevice, hp'⟩ := hf (h.client x)
  refine hk.changeClient hdevice ?_ ?_
  · rw [Phase.ticket?_of_not_underway hp, Phase.ticket?_of_not_underway hp']
  · rw [Phase.batch_of_not_underway hp, Phase.batch_of_not_underway hp']

theorem wake (hk : Tickets h returned) (j : Nat) : Tickets (h.wake j) returned := by
  refine hk.calm (fun i => ?_) (fun i => ?_) fun i => ⟨rfl, rfl⟩
  · unfold Hub.outstanding
    rw [Hub.totalOn_wake Phase.taken_stirred]
    rfl
  · exact Hub.totalOn_wake Phase.awaited_stirred i j

theorem measure (hk : Tickets h returned) (ms : List Measurement) :
    Tickets (h.measure ms) returned := ⟨hk.issued, hk.awaited, hk.asking⟩

/-- A device may change in everything but its queue. -/
theorem setDevice (hk : Tickets h returned) {d : Device}
    (hpending : d.pending = (h.device i).pending)
    (hresults : d.results = (h.device i).results) (hnext : d.nextTicket = (h.device i).nextTicket)
    (hasking : d.asking = (h.device i).asking) : Tickets (h.setDevice i d) returned := by
  by_cases hi : i < h.devices.size
  · have hsame : ∀ j, tickets ((h.setDevice i d).device j).pending = tickets (h.device j).pending ∧
        ((h.setDevice i d).device j).published = (h.device j).published ∧
        ((h.setDevice i d).device j).nextTicket = (h.device j).nextTicket ∧
        ((h.setDevice i d).device j).asking = (h.device j).asking := by
      intro j
      rw [Hub.device_setDevice j d hi]
      split
      · subst j
        exact ⟨by rw [hpending], by rw [Device.published, hresults]; rfl, hnext, hasking⟩
      · exact ⟨rfl, rfl, rfl, rfl⟩
    refine hk.calm (fun j => ?_) (fun j => rfl) fun j => (hsame j).2.2
    unfold Hub.outstanding
    rw [(hsame j).1, (hsame j).2.1]
    rfl
  · rw [Hub.setDevice_of_le h i d (Nat.not_lt.mp hi)]
    exact hk

/-! ## The queue -/

section Exchange

variable {d : Device}

theorem outstanding_exchange (hx : x < h.clients.size)
    (hi : (h.client x).device < h.devices.size) (j : Nat) :
    ((h.setDevice (h.client x).device d).setPhase x p).outstanding j +
        (if (h.client x).device = j then (h.client x).phase.taken else 0) =
      (if j = (h.client x).device then tickets d.pending + d.published
        else tickets (h.device j).pending + (h.device j).published) +
      h.totalOn j Phase.taken + h.flushedOn j +
        if (h.client x).device = j then p.taken else 0 := by
  have htaken := Hub.totalOn_setDevice_setPhase (f := Phase.taken) (p := p) hx
    (h.client x).device d j
  have hflushed :
      ((h.setDevice (h.client x).device d).setPhase x p).flushedOn j = h.flushedOn j := rfl
  unfold Hub.outstanding
  rw [hflushed, Hub.setPhase, Hub.device_changeClient, Hub.device_setDevice j d hi, ← Hub.setPhase]
  rw [add_right_comm _ _ (ite _ (h.client x).phase.taken _), add_right_comm _ _ (ite _ _ _),
    add_assoc (tickets _) _ (ite _ _ _), htaken]
  split <;> abel

/-- A client changes the queue of its device and its own phase together. What its phase holds, and
what the device holds, are exchanged, but for some new tickets and some that are returned. -/
theorem exchange (hk : Tickets h returned) (hx : x < h.clients.size)
    (hi : (h.client x).device < h.devices.size) {returned' : Nat → List Nat}
    (new old : Multiset Nat)
    (queue : tickets d.pending + d.published + p.taken + old =
      tickets (h.device (h.client x).device).pending + (h.device (h.client x).device).published +
        (h.client x).phase.taken + new)
    (awaited : p.awaited + old = (h.client x).phase.awaited + new)
    (next : Multiset.range d.nextTicket =
      .range (h.device (h.client x).device).nextTicket + new)
    (back : ∀ j, (returned' j : Multiset Nat) =
      returned j + if (h.client x).device = j then old else 0)
    (asking : d.asking + old.card = (h.device (h.client x).device).asking + new.card) :
    Tickets ((h.setDevice (h.client x).device d).setPhase x p) returned' := by
  have hout := outstanding_exchange (d := d) (p := p) hx hi
  have hwait := Hub.totalOn_setDevice_setPhase (f := Phase.awaited) (p := p) hx
    (h.client x).device d
  have hdevice : ∀ j, ((h.setDevice (h.client x).device d).setPhase x p).device j =
      if j = (h.client x).device then d else h.device j := fun j =>
    Hub.device_setDevice j d hi
  have hsum :
      ((h.setDevice (h.client x).device d).setPhase x p).outstanding (h.client x).device + old =
      h.outstanding (h.client x).device + new := by
    have hself := hout (h.client x).device
    simp only [if_true] at hself
    refine add_right_cancel (b := (h.client x).phase.taken) ?_
    rw [add_right_comm, hself]
    calc tickets d.pending + d.published + h.totalOn _ Phase.taken + h.flushedOn _ + p.taken + old
      _ = tickets d.pending + d.published + p.taken + old +
          h.totalOn (h.client x).device Phase.taken + h.flushedOn (h.client x).device := by abel
      _ = _ := by
        rw [queue]
        unfold Hub.outstanding
        abel
  have hother : ∀ j, j ≠ (h.client x).device →
      ((h.setDevice (h.client x).device d).setPhase x p).outstanding j = h.outstanding j := by
    intro j hj
    have hj' := hout j
    simp only [hj, hj.symm, if_false, add_zero] at hj'
    rw [hj']
    unfold Hub.outstanding
    abel
  refine ⟨fun j => ?_, fun j => ?_, fun j => ?_⟩
  · rw [hdevice, back]
    by_cases hj : j = (h.client x).device
    · subst hj
      rw [if_pos rfl, if_pos rfl, next, ← hk.issued, ← add_assoc, add_right_comm, hsum]
      abel
    · rw [if_neg hj, if_neg (Ne.symm hj), add_zero, hother j hj, hk.issued]
  · by_cases hj : j = (h.client x).device
    · subst hj
      have hself := hwait (h.client x).device
      simp only [if_true, hk.awaited] at hself
      refine add_right_cancel (b := old) (add_right_cancel (b := (h.client x).phase.awaited) ?_)
      rw [hsum, add_right_comm, hself, add_assoc, awaited]
      abel
    · have hj' := hwait j
      simp only [Ne.symm hj, if_false, add_zero] at hj'
      rw [hj', hother j hj, hk.awaited]
  · rw [hdevice]
    by_cases hj : j = (h.client x).device
    · subst hj
      rw [if_pos rfl]
      have hcard := congrArg Multiset.card hsum
      simp only [Multiset.card_add, ← hk.asking] at hcard
      omega
    · rw [if_neg hj, hother j hj, hk.asking]

/-- A client gets a new ticket and waits with it. -/
theorem submit (hk : Tickets h returned) (hx : x < h.clients.size)
    (hi : (h.client x).device < h.devices.size) (hnone : (h.client x).phase.ticket? = none)
    (hbatch : (h.client x).phase.batch = []) {key : ModelKey} {positions : List Position}
    (hsubmit : (h.device (h.client x).device).submit key positions = .ok (t, d)) :
    Tickets ((h.setDevice (h.client x).device d).setPhase x (.awake t)) returned := by
  obtain ⟨-, rfl, rfl⟩ := Device.submit_eq_ok hsubmit
  refine hk.exchange hx hi {(h.device (h.client x).device).nextTicket} 0
    ?_ ?_ ?_ (fun j => by simp) (by simp)
  · simp only [tickets_append, tickets_singleton, Phase.taken_eq_zero hbatch, Phase.taken_awake,
      Device.published]
    abel
  · rw [Phase.awaited_eq_zero hnone, Phase.awaited_awake, add_zero, zero_add]
  · rw [Multiset.range_succ, ← Multiset.singleton_add, add_comm]

/-- A client takes all requests that are pending on its device. -/
theorem take (hk : Tickets h returned) (ht : (h.client x).phase = .awake t)
    (hi : (h.client x).device < h.devices.size) :
    Tickets ((h.setDevice (h.client x).device (h.device (h.client x).device).taken).setPhase x
      (.running t (h.device (h.client x).device).pending)) returned := by
  refine hk.exchange (known_of_ticket? (by rw [ht]; rfl)) hi 0 0
    ?_ ?_ ?_ (fun j => by simp) rfl
  · simp only [ht, Phase.taken_awake, Phase.taken_running, Device.taken, Device.published,
      tickets_nil]
    abel
  · rw [ht, Phase.awaited_awake, Phase.awaited_running]
  · rw [add_zero]
    rfl

theorem published_publish {requests : List Request} {run : Device.BatchRun}
    {models : List LoadedModel} (hrun : Device.runBatch models requests = .ok run) (d : Device) :
    (d.publish run).published = d.published + tickets requests := by
  have hperm : ((run.results.map (·.1) : List Nat) : Multiset Nat) = tickets requests :=
    Multiset.coe_eq_coe.mpr (Device.runBatch_tickets hrun)
  simp only [Device.published, Device.publish, List.map_append, ← Multiset.coe_add, hperm]

/-- A client lays out the answers of its batch. -/
theorem publish (hk : Tickets h returned) {batch : List Request}
    (ht : (h.client x).phase = .running t batch) (hi : (h.client x).device < h.devices.size)
    {run : Device.BatchRun} {models : List LoadedModel}
    (hrun : Device.runBatch models batch = .ok run) :
    Tickets ((h.setDevice (h.client x).device
      ((h.device (h.client x).device).publish run)).setPhase x (.awake t)) returned := by
  refine hk.exchange (known_of_ticket? (by rw [ht]; rfl)) hi 0 0
    ?_ ?_ ?_ (fun j => by simp) rfl
  · rw [published_publish hrun, ht, Phase.taken_awake, Phase.taken_running]
    simp only [Device.publish]
    abel
  · rw [ht, Phase.awaited_awake, Phase.awaited_running]
  · rw [add_zero]
    rfl

/-- A client gets its answer and gives its ticket back. -/
theorem collect (hk : Tickets h returned) (ht : (h.client x).phase = .awake t)
    (hi : (h.client x).device < h.devices.size) {answer : List Evaluation}
    (hcollect : (h.device (h.client x).device).collect? t = some (answer, d))
    (hp : p.ticket? = none) (hbatch : p.batch = []) :
    Tickets ((h.setDevice (h.client x).device d).setPhase x p) (Function.update returned
      (h.client x).device (t :: returned (h.client x).device)) := by
  obtain ⟨hmem, rfl⟩ := Device.collect?_eq_some hcollect
  have hnodup := hk.nodup_published (h.client x).device
  have hpublished := Device.published_filter hnodup hmem
  have hpos : 0 < (h.device (h.client x).device).asking := by
    rw [hk.asking, Multiset.card_pos_iff_exists_mem]
    exact ⟨t, hk.mem_outstanding (by rw [ht]; rfl)⟩
  refine hk.exchange (known_of_ticket? (by rw [ht]; rfl)) hi 0 {t}
    ?_ ?_ ?_ (fun j => ?_) ?_
  · rw [hpublished, ← Multiset.singleton_add, ht, Phase.taken_awake, Phase.taken_eq_zero hbatch]
    simp only [Device.published]
    abel
  · rw [ht, Phase.awaited_awake, Phase.awaited_eq_zero hp, zero_add, add_zero]
  · rw [add_zero]
  · by_cases hj : (h.client x).device = j
    · subst hj
      rw [Function.update_self, if_pos rfl, ← Multiset.cons_coe, ← Multiset.singleton_add, add_comm]
    · rw [Function.update_of_ne (Ne.symm hj), if_neg hj, add_zero]
  · simp only [Multiset.card_singleton, Multiset.card_zero]
    omega

end Exchange

/-! ## Batches that are taken from outside -/

theorem flush (hk : Tickets h returned) (i : Nat) : Tickets (h.flush i) returned := by
  unfold Hub.flush
  simp only
  split
  · exact hk
  · rename_i hpending
    have hi : i < h.devices.size := by
      by_contra hi
      rw [Hub.device_of_le (Nat.not_lt.mp hi)] at hpending
      exact hpending rfl
    have hdevice : ∀ j, (h.setDevice i (h.device i).taken).device j =
        if j = i then (h.device i).taken else h.device j := fun j => Hub.device_setDevice j _ hi
    refine hk.calm (fun j => ?_) (fun j => rfl) fun j => ?_
    · have hflushed : Hub.flushedOn
          { h.setDevice i (h.device i).taken with
            flushes := h.flushes ++ [(i, (h.device i).pending)] } j
          = h.flushedOn j + if i = j then tickets (h.device i).pending else 0 := by
        simp [Hub.flushedOn]
      unfold Hub.outstanding
      rw [hflushed]
      show tickets ((h.setDevice i _).device j).pending + h.totalOn j Phase.taken + _ +
        ((h.setDevice i _).device j).published = _
      rw [hdevice]
      by_cases hj : j = i
      · subst hj
        simp only [if_true, Device.taken, Device.published, tickets_nil]
        abel
      · simp only [hj, Ne.symm hj, if_false, add_zero]
    · show ((h.setDevice i _).device j).nextTicket = _ ∧ ((h.setDevice i _).device j).asking = _
      rw [hdevice]
      split
      · subst j
        exact ⟨rfl, rfl⟩
      · exact ⟨rfl, rfl⟩

theorem flushedOn_eraseIdx {k : Nat} {batch : List Request} (hk : h.flushes[k]? = some (i, batch))
    (j : Nat) : Hub.flushedOn { h with flushes := h.flushes.eraseIdx k } j +
      (if i = j then tickets batch else 0) = h.flushedOn j := by
  obtain ⟨hlt, hget⟩ := List.getElem?_eq_some_iff.mp hk
  have hperm := ((List.getElem_cons_eraseIdx_perm hlt).map fun f : Nat × List Request =>
    if f.1 = j then tickets f.2 else 0).sum_eq
  rw [List.map_cons, List.sum_cons, hget, add_comm] at hperm
  exact hperm

/-- The answers of a batch that was taken from outside are laid out. -/
theorem runFlush (hk : Tickets h returned) {k : Nat} {batch : List Request}
    (hflush : h.flushes[k]? = some (i, batch)) (hi : i < h.devices.size) {run : Device.BatchRun}
    {models : List LoadedModel} (hrun : Device.runBatch models batch = .ok run) :
    Tickets (Hub.setDevice { h with flushes := h.flushes.eraseIdx k } i
      ((h.device i).publish run)) returned := by
  have hdevice : ∀ j, (Hub.setDevice { h with flushes := h.flushes.eraseIdx k } i
      ((h.device i).publish run)).device j =
        if j = i then (h.device i).publish run else h.device j :=
      fun j => Hub.device_setDevice j _ hi
  refine hk.calm (fun j => ?_) (fun j => rfl) fun j => ?_
  · have hflushed := flushedOn_eraseIdx hflush j
    unfold Hub.outstanding
    rw [hdevice, ← hflushed]
    show _ + h.totalOn j Phase.taken + Hub.flushedOn { h with flushes := h.flushes.eraseIdx k } j +
      _ = _
    by_cases hj : j = i
    · subst hj
      rw [if_pos rfl, if_pos rfl, published_publish hrun]
      simp only [Device.publish]
      abel
    · rw [if_neg hj, if_neg (Ne.symm hj), add_zero]
  · rw [hdevice]
    split
    · subst j
      exact ⟨rfl, rfl⟩
    · exact ⟨rfl, rfl⟩

/-! ## New clients -/

theorem addClient (hk : Tickets h returned) {c : Client} (hp : c.phase = .idle) :
    Tickets { h with clients := h.clients.push c } returned := by
  have htotal : ∀ (f : Phase → Multiset Nat) (i : Nat), f .idle = 0 →
      Hub.totalOn { h with clients := h.clients.push c } i f = h.totalOn i f := fun f i hf => by
    simp [Hub.totalOn, Hub.total, hp, hf]
  refine hk.calm (fun i => ?_) (fun i => htotal Phase.awaited i rfl) fun i => ⟨rfl, rfl⟩
  unfold Hub.outstanding
  rw [htotal Phase.taken i rfl]
  rfl

end Tickets

end Goban
