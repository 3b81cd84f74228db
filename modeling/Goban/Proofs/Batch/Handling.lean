import Goban.Proofs.Batch.Chronicle

/-!
# What is done to answers

An event may run a batch, which lays out its answers (`Hub.Lays`), and then a client may look for
the answer under its ticket (`Hub.Looked`). Nothing else is done to answers (`Course.Handles`). So a
client that has an answer had it before, asked for nothing, or has just found it
(`Course.Handles.answer_cases`), and what was laid out lies there still or was returned
(`Course.Handles.published`).
-/

namespace Goban

namespace Phase

/-- The answer that a client has. -/
def answer? : Phase → Option (List Evaluation)
  | rejoining answer | answered answer => some answer
  | _ => none

@[simp] theorem answer?_stirred (p : Phase) : p.stirred.answer? = p.answer? := by cases p <;> rfl

theorem answer?_of_not_underway {p : Phase} (h : p.isUnderway = false) : p.answer? = none := by
  cases p <;> first | rfl | cases h

theorem isSome_answer? (p : Phase) : p.answer?.isSome = p.hasAnswer := by cases p <;> rfl

theorem ne_idle_of_ticket? {p : Phase} {t : Nat} (h : p.ticket? = some t) : p ≠ .idle := by
  rintro rfl
  cases h

theorem ne_idle_of_answer? {p : Phase} {answer : List Evaluation} (h : p.answer? = some answer) :
    p ≠ .idle := by
  rintro rfl
  cases h

end Phase

namespace Hub

variable {h h' mid : Hub} {e : Event} {i t x : Nat}

/-! ## Looking for an answer -/

/-- A client has looked for the answer under its ticket: it has found it, and the answer lies on the
device no more, or it waits on. -/
inductive Looked (h : Hub) (x t : Nat) (h' : Hub) : Prop where
  | finds {answer : List Evaluation} (mem : (t, answer) ∈ (h.device (h.client x).device).results)
      (ticket : (h'.client x).phase.ticket? = none)
      (answer : (h'.client x).phase.answer? = some answer)
      (rest : ∀ i, (h'.device i).results = if i = (h.client x).device then
        (h.device i).results.filter (·.1 != t) else (h.device i).results)
  | waits (ticket : (h'.client x).phase.ticket? = some t)
      (answer : (h'.client x).phase.answer? = none)
      (rest : ∀ i, (h'.device i).results = (h.device i).results)

theorem results_setDevice {d : Device} (hd : d.results = (h.device i).results) (j : Nat) :
    ((h.setDevice i d).device j).results = (h.device j).results := by
  rcases device_setDevice_cases h i j d with hj | ⟨rfl, -, hj⟩
  · rw [hj]
  · rw [hj, hd]

theorem results_register (h : Hub) (i j : Nat) :
    ((h.register i).device j).results = (h.device j).results := by
  have hsame : (h.device i).register.results = (h.device i).results := rfl
  exact results_setDevice hsame j

theorem results_unregister (ok : h.unregister i = .ok h') (j : Nat) :
    (h'.device j).results = (h.device j).results := by
  obtain ⟨d, ms, hd, rfl⟩ := unregister_eq_ok ok
  have hsame := congrArg Device.results (Device.unregister_eq_ok hd).2
  exact results_setDevice hsame j

theorem looked_look (hx : x < h.clients.size) (hi : (h.client x).device < h.devices.size) :
    h.Looked x t (h.look x t) := by
  rcases h.look_cases x t with ⟨answer, d, hcollect, hlook⟩ | ⟨-, -, hlook⟩ | ⟨-, -, hlook⟩
  · obtain ⟨hmem, hd⟩ := Device.collect?_eq_some hcollect
    refine .finds hmem ?_ ?_ fun i => ?_
    · rw [hlook, phase_setPhase (h := h.setDevice _ _) hx]
      unfold afterCollecting
      split <;> rfl
    · rw [hlook, phase_setPhase (h := h.setDevice _ _) hx]
      unfold afterCollecting
      split <;> rfl
    · rw [hlook, setPhase, device_changeClient, device_setDevice i d hi, hd]
      split
      · subst i
        rfl
      · rfl
  · refine .waits ?_ ?_ fun i => ?_
    · rw [hlook, phase_setPhase (h := h.setDevice _ _) hx]
      rfl
    · rw [hlook, phase_setPhase (h := h.setDevice _ _) hx]
      rfl
    · have hd : (h.device (h.client x).device).taken.results =
        (h.device (h.client x).device).results := rfl
      rw [hlook]
      exact results_setDevice hd i
  · refine .waits ?_ ?_ fun i => ?_
    · rw [hlook, phase_setPhase hx]
      rfl
    · rw [hlook, phase_setPhase hx]
      rfl
    · rw [hlook]
      rfl

/-! ## Laying out answers -/

/-- The hub has the answers that lie on the devices once an event has run its batch, if it is one
that runs a batch. -/
inductive Lays (h : Hub) (e : Event) (mid : Hub) : Prop where
  | nothing (batch : h.batchOf? e = none)
      (results : ∀ i, (mid.device i).results = (h.device i).results)
  | batch {i : Nat} {batch : List Request} {run : Device.BatchRun}
      (taken : h.batchOf? e = some (i, batch)) (held : ∀ r ∈ batch, h.Holds i r)
      (ok : Device.runBatch (h.device i).models batch = .ok run)
      (called : ∀ call ∈ run.calls, .call (h.device i).name call.1 call.2 ∈ mid.journal)
      (results : ∀ j, (mid.device j).results =
        if j = i then (h.device j).results ++ run.results else (h.device j).results)

theorem lays_runBatch {batch : List Request} {flushes : List (Nat × List Request)}
    (taken : h.batchOf? e = some (i, batch)) (held : ∀ r ∈ batch, h.Holds i r)
    (hi : i < h.devices.size) (ok : { h with flushes }.runBatch i batch = .ok h') :
    h.Lays e h' := by
  obtain ⟨run, hrun, rfl⟩ := runBatch_eq_ok ok
  refine .batch taken held hrun (fun call hcall => ?_) fun j => ?_
  · exact List.mem_append_left _ (List.mem_reverse.mpr (mem_callsOf hcall))
  · show ((h.setDevice i ((h.device i).publish run)).device j).results = _
    rw [device_setDevice j _ hi]
    split
    · subst j
      rfl
    · rfl

/-- What lies on a device then lay there before, or was said in the batch. -/
theorem Lays.mem (hlays : h.Lays e mid) {entry : Nat × List Evaluation}
    (hmem : entry ∈ (mid.device i).results) : entry ∈ (h.device i).results ∨
      ∃ batch run, h.batchOf? e = some (i, batch) ∧ (∀ r ∈ batch, h.Holds i r) ∧
        Device.runBatch (h.device i).models batch = .ok run ∧
        (∀ call ∈ run.calls, .call (h.device i).name call.1 call.2 ∈ mid.journal) ∧
        entry ∈ run.results := by
  cases hlays with
  | nothing _ results =>
    rw [results] at hmem
    exact .inl hmem
  | batch taken held ok called results =>
    rw [results] at hmem
    split at hmem
    · subst i
      exact (List.mem_append.mp hmem).imp_right fun hrun => ⟨_, _, taken, held, ok, called, hrun⟩
    · exact .inl hmem

end Hub

namespace Course

variable {c : Course} {e : Event} {hub : Hub} {i t x y : Nat} {answer : List Evaluation}

/-- An event runs its batch, if it is one that runs a batch, and then nobody gets a ticket or an
answer, or the client that proceeds looks for its answer. -/
inductive Handles (c : Course) (e : Event) (hub : Hub) : Prop where
  | looks {x t : Nat} {mid : Hub} (event : e = .proceed x) (ticket : c.ticketOf? x = some t)
      (lays : c.hub.Lays e mid) (journal : mid.journal ⊆ hub.journal)
      (home : (mid.client x).device = (c.hub.client x).device)
      (once : (mid.device (c.hub.client x).device).published.Nodup)
      (looked : mid.Looked x t hub)
  | rests (lays : c.hub.Lays e hub) (own : ∀ x, e = .proceed x → c.ticketOf? x = none ∧
      (hub.client x).phase.ticket? = none ∧ ∀ answer, (hub.client x).phase.answer? = some answer →
        (c.hub.client x).phase.answer? = some answer)

theorem handles_of_look {mid : Hub} (hx : x < mid.clients.size)
    (hi : (mid.client x).device < mid.devices.size) (ticket : c.ticketOf? x = some t)
    (lays : c.hub.Lays (.proceed x) mid) (home : (mid.client x).device = (c.hub.client x).device)
    (once : (mid.device (c.hub.client x).device).published.Nodup) :
    c.Handles (.proceed x) (mid.look x t) := by
  have hframe : Hub.Frame (fun _ => True) mid (mid.look x t) := .look trivial mid t
  exact .looks rfl ticket lays hframe.journal home once (Hub.looked_look hx hi)

/-- Who has a batch to run waits for an answer. -/
theorem batchOf?_of_ticketOf? (ticket : c.ticketOf? x = none) :
    c.hub.batchOf? (.proceed x) = none := by
  unfold Hub.batchOf?
  simp only
  split
  · rename_i t batch hp
    unfold ticketOf? at ticket
    rw [hp] at ticket
    cases ticket
  · rfl

/-- A client that proceeds without looking for its answer keeps what it has. -/
theorem handles_of_rest (ticket : c.ticketOf? x = none)
    (results : ∀ i, (hub.device i).results = (c.hub.device i).results)
    (phase : (hub.client x).phase.ticket? = none ∧ ((hub.client x).phase.answer? = none ∨
      (hub.client x).phase.answer? = (c.hub.client x).phase.answer?)) :
    c.Handles (.proceed x) hub := by
  refine .rests (.nothing (batchOf?_of_ticketOf? ticket) results) fun y hy => ?_
  cases hy
  refine ⟨ticket, phase.1, fun answer hanswer => ?_⟩
  rcases phase.2 with hnone | hsame
  · rw [hnone] at hanswer
    cases hanswer
  · rw [← hsame, hanswer]

section Proceeding

variable {batch : List Request} {positions : List Position} {d : Device}

/-- A client that makes its request looks for the answer under the ticket that it gets. -/
theorem Kept.handles_submit (hl : c.Kept) (hp : (c.hub.client x).phase = .submitting positions)
    (hsubmit : (c.hub.device (c.hub.client x).device).submit (c.hub.client x).key positions =
      .ok (t, d)) :
    c.Handles (.proceed x) ((c.hub.setDevice (c.hub.client x).device d).look x t) := by
  have hx : x < c.hub.clients.size := Hub.lt_size_of_ne_idle (by rw [hp]; exact nofun)
  have hlaid := Ledger.submit hl hp hsubmit
  obtain ⟨-, rfl, hd⟩ := Device.submit_eq_ok hsubmit
  have hsame := congrArg Device.results hd
  refine handles_of_look hx ?_ (by simp [ticketOf?, hp])
    (.nothing (by simp [Hub.batchOf?, hp]) (Hub.results_setDevice hsame)) rfl
    (hlaid.tickets.nodup_published _)
  simpa using hl.census.home x hx

/-- A client that has run a batch looks for its answer then. -/
theorem Kept.handles_run {mid : Hub} (hl : c.Kept)
    (hp : (c.hub.client x).phase = .running t batch)
    (hrun : c.hub.runBatch (c.hub.client x).device batch = .ok mid) :
    c.Handles (.proceed x) (mid.look x t) := by
  have hx : x < c.hub.clients.size := Hub.lt_size_of_ne_idle (by rw [hp]; exact nofun)
  obtain ⟨hlaid, hsize, hdevice⟩ := Ledger.publish hl hp hrun
  have hframe : Hub.Frame (fun _ => False) c.hub mid := .runBatch hrun
  have htaken : c.hub.batchOf? (.proceed x) = some ((c.hub.client x).device, batch) := by
    simp [Hub.batchOf?, hp]
  have hheld : ∀ r ∈ batch, c.hub.Holds (c.hub.client x).device r := by
    intro r hr
    refine .inr (.inl ⟨x, rfl, ?_⟩)
    rw [hp]
    exact hr
  refine handles_of_look (hsize ▸ hx) ?_ (by simp [ticketOf?, hp, Phase.ticket?])
    (Hub.lays_runBatch htaken hheld (hl.census.home x hx) hrun) hdevice
    (hlaid.tickets.nodup_published _)
  rw [hdevice, hframe.devices]
  exact hl.census.home x hx

/-- A client that sleeps has looked for its answer before. -/
theorem Kept.handles_asleep (hl : c.Kept) (hp : (c.hub.client x).phase = .asleep t) :
    c.Handles (.proceed x) c.hub := by
  refine .looks (t := t) rfl (by simp [ticketOf?, hp, Phase.ticket?])
    (.nothing (by simp [Hub.batchOf?, hp]) fun _ => rfl) (List.Subset.refl _) rfl
    (hl.tickets.nodup_published _) (.waits ?_ ?_ fun _ => rfl)
  · rw [hp]
    rfl
  · rw [hp]
    rfl

theorem Kept.handles_proceed (hl : c.Kept) (ok : c.hub.proceed x = .ok hub) :
    c.Handles (.proceed x) hub := by
  have hknown : (c.hub.client x).phase ≠ .idle → x < c.hub.clients.size := Hub.lt_size_of_ne_idle
  cases Hub.proceed_eq_ok ok with
  | leave hp hleave =>
    have hsame := congrArg Device.results (Device.leave_eq_ok hleave)
    refine handles_of_rest (by simp [ticketOf?, hp, Phase.ticket?])
      (Hub.results_setDevice hsame) ?_
    rw [Hub.phase_setPhase (by simpa using hknown (by simp [hp]))]
    exact ⟨rfl, .inl rfl⟩
  | submit hp hsubmit => exact hl.handles_submit hp hsubmit
  | look hp =>
    have hx := hknown (by simp [hp])
    exact handles_of_look hx (hl.census.home x hx) (by simp [ticketOf?, hp, Phase.ticket?])
      (.nothing (by simp [Hub.batchOf?, hp]) fun i => rfl) rfl (hl.tickets.nodup_published _)
  | run hp hrun => exact hl.handles_run hp hrun
  | rejoin hp hrejoin =>
    have hsame := congrArg Device.results (Device.rejoin_eq_ok hrejoin).2
    refine handles_of_rest (by simp [ticketOf?, hp, Phase.ticket?])
      (Hub.results_setDevice hsame) ?_
    rw [Hub.phase_setPhase (by simpa using hknown (by simp [hp])), hp]
    exact ⟨rfl, .inr rfl⟩
  | @opening y hp =>
    have hrest := Hub.not_underway_of_enter (a := x) (b := y)
      (c.hub.register (c.hub.client y).device) (.inl rfl)
    exact handles_of_rest (by simp [ticketOf?, hp, Phase.ticket?])
      (Hub.results_register c.hub _)
      ⟨Phase.ticket?_of_not_underway hrest, .inl (Phase.answer?_of_not_underway hrest)⟩
  | @closing y mid hp hun =>
    have hrest := Hub.not_underway_of_exit (a := x) (b := y) mid (.inl rfl)
    have hsame := Hub.results_unregister hun
    exact handles_of_rest (by simp [ticketOf?, hp, Phase.ticket?]) hsame
      ⟨Phase.ticket?_of_not_underway hrest, .inl (Phase.answer?_of_not_underway hrest)⟩
  | rest hp =>
    -- Of the clients that stay as they are only those that sleep have a ticket.
    rcases hp with hp | ⟨t, hp⟩ | ⟨answer, hp⟩ | hp
    · exact handles_of_rest (by simp [ticketOf?, hp, Phase.ticket?]) (fun _ => rfl)
        ⟨by rw [hp]; rfl, .inr rfl⟩
    · exact hl.handles_asleep hp
    · exact handles_of_rest (by simp [ticketOf?, hp, Phase.ticket?]) (fun _ => rfl)
        ⟨by rw [hp]; rfl, .inr rfl⟩
    · exact handles_of_rest (by simp [ticketOf?, hp, Phase.ticket?]) (fun _ => rfl)
        ⟨by rw [hp]; rfl, .inr rfl⟩

end Proceeding

/-- Every event handles answers so. -/
theorem Kept.handles (hl : c.Kept) (ok : c.hub.act e = .ok hub) : c.Handles e hub := by
  have rests : (∀ x, e ≠ .proceed x) → c.hub.batchOf? e = none →
      (∀ i, (hub.device i).results = (c.hub.device i).results) → c.Handles e hub :=
    fun hother hbatch hresults => .rests (.nothing hbatch hresults) fun x hx => absurd hx (hother x)
  cases e with
  | startGame a b =>
    refine rests nofun rfl ?_
    rcases Hub.startGame_eq_ok ok with ⟨-, rfl⟩ | ⟨-, rfl⟩
    · exact Hub.results_register _ _
    · exact Hub.results_register _ _
  | endGame a b =>
    refine rests nofun rfl ?_
    obtain ⟨mid, hun, ⟨-, rfl⟩ | ⟨-, rfl⟩⟩ := Hub.endGame_eq_ok ok
    · have hsame := Hub.results_unregister hun
      exact hsame
    · have hsame := Hub.results_unregister hun
      exact hsame
  | request x positions =>
    refine rests nofun rfl fun i => ?_
    rw [Hub.act_request_eq_ok ok]
    rfl
  | proceed x => exact hl.handles_proceed ok
  | collect x =>
    refine rests nofun rfl fun i => ?_
    rcases Hub.act_collect_eq_ok ok with rfl | ⟨answer, -, rfl⟩ <;> rfl
  | flush j =>
    cases ok
    refine rests nofun rfl fun i => ?_
    unfold Hub.flush
    simp only
    split
    · rfl
    · have hsame : (c.hub.device j).taken.results = (c.hub.device j).results := rfl
      exact Hub.results_setDevice hsame i
  | runFlush k =>
    change c.hub.runFlush k = .ok hub at ok
    unfold Hub.runFlush at ok
    cases hflush : c.hub.flushes[k]? with
    | none =>
      rw [hflush] at ok
      cases ok
      exact rests nofun hflush fun i => rfl
    | some f =>
      obtain ⟨i, batch⟩ := f
      rw [hflush] at ok
      have hmem : (i, batch) ∈ c.hub.flushes := List.mem_of_getElem? hflush
      exact .rests (Hub.lays_runBatch hflush (fun r hr => .inr (.inr ⟨batch, hmem, hr⟩))
        (hl.routed.flushed _ hmem) ok) nofun
  | stir x =>
    cases ok
    exact rests nofun rfl fun i => rfl

/-- A client that waits afterwards waited before, or has just looked for its answer. -/
theorem Handles.ticket_cases (hh : c.Handles e hub) (ok : c.hub.act e = .ok hub)
    (ht : (hub.client y).phase.ticket? = some t) :
    e ≠ .proceed y ∧ (c.hub.client y).phase.ticket? = some t ∨
      e = .proceed y ∧ c.ticketOf? y = some t := by
  by_cases he : e = .proceed y
  · refine .inr ⟨he, ?_⟩
    cases hh with
    | looks event ticket _ _ _ _ looked =>
      cases event.symm.trans he
      cases looked with
      | finds _ hnone =>
        rw [hnone] at ht
        cases ht
      | waits hwaits =>
        rw [hwaits] at ht
        cases ht
        exact ticket
    | rests _ own =>
      rw [(own y he).2.1] at ht
      cases ht
  · refine .inl ⟨he, ?_⟩
    rcases Hub.stirred_or_batch_of_act ok he with hs | hnone | ⟨positions, -, hasked⟩
    · rw [← Phase.ticket?_stirred, ← Client.stirred_phase, ← hs, Client.stirred_phase,
        Phase.ticket?_stirred, ht]
    · rw [Phase.ticket?_of_not_underway hnone] at ht
      cases ht
    · rw [hasked] at ht
      unfold Hub.afterAsking at ht
      split at ht
      · cases ht
      · split at ht <;> cases ht

/-- A client that has an answer afterwards had it before, asked for nothing, or has just found
it. -/
theorem Handles.answer_cases (hh : c.Handles e hub) (ok : c.hub.act e = .ok hub)
    (ha : (hub.client y).phase.answer? = some answer) :
    (e = .proceed y → c.ticketOf? y = none) ∧ (c.hub.client y).phase.answer? = some answer ∨
      e = .request y [] ∧ answer = [] ∨
      ∃ t mid, e = .proceed y ∧ c.ticketOf? y = some t ∧ c.hub.Lays e mid ∧
        mid.journal ⊆ hub.journal ∧
        (t, answer) ∈ (mid.device (c.hub.client y).device).results := by
  by_cases he : e = .proceed y
  · cases hh with
    | looks event ticket lays journal home _ looked =>
      cases event.symm.trans he
      cases looked with
      | finds mem _ hanswer =>
        rw [hanswer] at ha
        cases ha
        exact .inr (.inr ⟨_, _, he, ticket, lays, journal, home ▸ mem⟩)
      | waits _ hnone =>
        rw [hnone] at ha
        cases ha
    | rests _ own => exact .inl ⟨fun _ => (own y he).1, (own y he).2.2 _ ha⟩
  · rcases Hub.stirred_or_batch_of_act ok he with hs | hnone | ⟨positions, hrequest, hasked⟩
    · refine .inl ⟨fun hproceed => absurd hproceed he, ?_⟩
      rw [← Phase.answer?_stirred, ← Client.stirred_phase, ← hs, Client.stirred_phase,
        Phase.answer?_stirred, ha]
    · rw [Phase.answer?_of_not_underway hnone] at ha
      cases ha
    · rw [hasked] at ha
      unfold Hub.afterAsking at ha
      split at ha
      · rename_i hempty
        cases ha
        exact .inr (.inl ⟨by rw [hrequest, List.isEmpty_iff.mp hempty], rfl⟩)
      · split at ha <;> cases ha

/-- What lies on a device afterwards lay there when the batch was run. -/
theorem Handles.mem (hh : c.Handles e hub) {entry : Nat × List Evaluation}
    (hmem : entry ∈ (hub.device i).results) :
    ∃ mid, c.hub.Lays e mid ∧ mid.journal ⊆ hub.journal ∧ entry ∈ (mid.device i).results := by
  cases hh with
  | looks _ _ lays journal _ _ looked =>
    refine ⟨_, lays, journal, ?_⟩
    cases looked with
    | finds _ _ _ rest =>
      rw [rest] at hmem
      split at hmem
      · exact List.mem_of_mem_filter hmem
      · exact hmem
    | waits _ _ rest => rwa [rest] at hmem
  | rests lays _ => exact ⟨_, lays, List.Subset.refl _, hmem⟩

/-- An answer that was found lies on the device no more, but it was returned. -/
theorem returned_of_looked {mid : Hub} (looked : mid.Looked x t hub)
    (ticket : c.ticketOf? x = some t) (home : (mid.client x).device = (c.hub.client x).device)
    (once : (mid.device (c.hub.client x).device).published.Nodup) (i : Nat) :
    (hub.device i).published + (c.returnedAfter x hub i : Multiset Nat) =
      (mid.device i).published + (c.returned i : Multiset Nat) := by
  unfold returnedAfter giveBack
  rw [ticket]
  simp only [← Phase.isSome_answer?]
  cases looked with
  | finds mem _ answer rest =>
    rw [answer, Option.isSome_some, if_pos rfl]
    unfold Device.published
    rw [rest, home]
    split
    · subst i
      have hout := Device.published_filter once (home ▸ mem)
      unfold Device.published at hout
      rw [hout, Function.update_self, ← Multiset.cons_coe, Multiset.cons_add, Multiset.add_cons]
    · rw [Function.update_of_ne ‹_›]
  | waits _ answer rest =>
    rw [answer, Option.isSome_none, if_neg Bool.false_ne_true]
    unfold Device.published
    rw [rest]

/-- Whatever was laid out lies there still, or was returned. -/
theorem Handles.published (hh : c.Handles e hub) : ∃ mid, c.hub.Lays e mid ∧ ∀ i,
    (hub.device i).published + ((c.follow e hub).returned i : Multiset Nat) =
      (mid.device i).published + (c.returned i : Multiset Nat) := by
  cases hh with
  | looks event ticket lays _ home once looked =>
    subst event
    exact ⟨_, lays, returned_of_looked looked ticket home once⟩
  | rests lays own =>
    refine ⟨hub, lays, fun i => ?_⟩
    cases e with
    | proceed x =>
      show _ + ((c.returnedAfter x hub i : List Nat) : Multiset Nat) = _
      unfold returnedAfter
      rw [(own x rfl).1]
    | _ => rfl

end Course

end Goban
