import Goban.Proofs.Batch.Handling

/-!
# Where answers come from

An answer is traced back to the call of a model that gave it. Every request that a model was called
for is answered, and in one call only; the answer that lies on a device under its ticket is what the
model says about this very request (`Chronicle.Answers`), and it comes to the client who got the
ticket (`Chronicle.Receipts`). Only what is done to answers has to be checked for that: what a batch
lays out (`Chronicle.Receipts.answers_of_lays`, `Chronicle.Receipts.called_of_lays`), and what a
client finds.
-/

namespace Goban

namespace Course

variable {c : Course} {e : Event} {hub : Hub} {x t : Nat}

/-! ## The last request of a client -/

/-- The last request of a client, under the ticket that it got. -/
def lastRequest (c : Course) (x : Nat) : Request :=
  ⟨c.lastTicket x, (c.hub.client x).key, c.asked x⟩

theorem ticketOf?_of_ticket? (ht : (c.hub.client x).phase.ticket? = some t) :
    c.ticketOf? x = some t := by
  unfold ticketOf?
  split
  · rename_i hp
    rw [hp] at ht
    cases ht
  · exact ht

theorem lastTicket_proceed (hticket : c.ticketOf? x = some t) :
    (c.follow (.proceed x) hub).lastTicket x = t := by
  simp only [follow, lastTicketAfter, hticket, Function.update_self]

/-- The last ticket of a client stays, but for a new one that it gets. -/
theorem lastTicket_follow
    (hticket : e = .proceed x → ∀ t, c.ticketOf? x = some t → t = c.lastTicket x) :
    (c.follow e hub).lastTicket x = c.lastTicket x := by
  show c.lastTicketAfter e x = c.lastTicket x
  cases e with
  | proceed y =>
    simp only [lastTicketAfter]
    cases ht : c.ticketOf? y with
    | none => rfl
    | some t =>
      by_cases hy : x = y
      · subst hy
        rw [hticket rfl t ht]
        exact congrFun (Function.update_eq_self x c.lastTicket) x
      · exact Function.update_of_ne hy _ _
  | _ => rfl

theorem askedAfter_of_ne (hask : ∀ positions, e ≠ .request x positions) :
    c.askedAfter e x = c.asked x := by
  cases e with
  | request y positions =>
    refine Function.update_of_ne ?_ _ _
    rintro rfl
    exact hask positions rfl
  | _ => rfl

/-- A client that asks for nothing more keeps its last request. -/
theorem lastRequest_follow (ok : c.hub.act e = .ok hub)
    (hask : ∀ positions, e ≠ .request x positions)
    (hticket : e = .proceed x → ∀ t, c.ticketOf? x = some t → t = c.lastTicket x) :
    (c.follow e hub).lastRequest x = c.lastRequest x := by
  unfold lastRequest
  rw [lastTicket_follow hticket]
  show Request.mk _ (hub.client x).key (c.askedAfter e x) = _
  rw [((Hub.act_frame ok).client x).2, askedAfter_of_ne hask]

end Course

/-! ## Receipts -/

namespace Hub

/-- A model said this about one of the requests that it was called for. The call was measured. -/
def Said (h : Hub) (call : ModelCall) (r : Request) (answer : List Evaluation) : Prop :=
  r.key = call.key ∧ ∃ loaded, (h.device call.device).models[call.key]? = some loaded ∧
    .call (h.device call.device).name loaded.path call.positions ∈ h.journal ∧
    loaded.model.Says call.requests r answer

theorem Said.extend {h h' : Hub} {call : ModelCall} {r : Request} {answer : List Evaluation}
    (he : h.Extends h') (hs : h.Said call r answer) : h'.Said call r answer := by
  obtain ⟨hkey, loaded, hloaded, hcall, hsaid⟩ := hs
  refine ⟨hkey, loaded, he.getElem?_models hloaded, ?_, hsaid⟩
  rw [(he.device _).2]
  exact he.journal hcall

end Hub

namespace Chronicle

variable {log log' : Chronicle} {c : Course} {e : Event} {h h' hub mid : Hub} {i t x y : Nat}
  {answer : List Evaluation} {r : Request}

/-- A device answered the request so: this was said about it in one of the calls of its models. -/
def Answers (log : Chronicle) (h : Hub) (i : Nat) (r : Request) (answer : List Evaluation) : Prop :=
  ∃ call ∈ log.calls, call.device = i ∧ h.Said call r answer

theorem Answers.extend (ha : log.Answers h i r answer) (he : h.Extends h')
    (hcalls : log.calls ⊆ log'.calls) : log'.Answers h' i r answer := by
  obtain ⟨call, hcall, hdevice, hsaid⟩ := ha
  exact ⟨call, hcalls hcall, hdevice, hsaid.extend he⟩

theorem Answers.length_eq (ha : log.Answers h i r answer) :
    answer.length = r.positions.length := by
  obtain ⟨call, -, -, -, loaded, -, -, hsaid⟩ := ha
  exact hsaid.length_eq

theorem calls_follow_of_batch {batch : List Request}
    (taken : c.hub.batchOf? e = some (i, batch)) :
    (log.follow c e).calls = (callsFor i batch).reverse ++ log.calls := by
  unfold follow
  rw [taken]

theorem calls_follow_of_none (hbatch : c.hub.batchOf? e = none) :
    (log.follow c e).calls = log.calls := by
  unfold follow
  rw [hbatch]

theorem calls_subset_follow (log : Chronicle) (c : Course) (e : Event) :
    log.calls ⊆ (log.follow c e).calls := by
  cases hbatch : c.hub.batchOf? e with
  | none => exact (calls_follow_of_none hbatch).symm ▸ List.Subset.refl _
  | some f => exact (calls_follow_of_batch (i := f.1) hbatch).symm ▸ List.subset_append_right _ _

/-- All answers are accounted for. -/
structure Receipts (log : Chronicle) (c : Course) : Prop where
  /-- Who waits waits for the answer to its last request. -/
  ticket : ∀ x t, (c.hub.client x).phase.ticket? = some t → c.lastTicket x = t
  /-- The requests that the models of a device were called for are those whose answers are laid out
  or were returned, each in one call. -/
  called : ∀ i, tickets ((log.callsOn i).flatMap (·.requests)) =
    (c.hub.device i).published + (c.returned i : Multiset Nat)
  /-- The answer that is laid out for a client is that to its request. -/
  published : ∀ x t answer, (c.hub.client x).phase.ticket? = some t →
    (t, answer) ∈ (c.hub.device (c.hub.client x).device).results →
      log.Answers c.hub (c.hub.client x).device (c.lastRequest x) answer
  /-- So is the answer that a client has; nothing is asked for no positions. -/
  inHand : ∀ x answer, (c.hub.client x).phase.answer? = some answer →
    log.Answers c.hub (c.hub.client x).device (c.lastRequest x) answer ∨
      c.asked x = [] ∧ answer = []

namespace Receipts

/-! ### What a batch adds -/

/-- The request under the ticket of a client in a batch of its device is the last one that it
made. -/
theorem eq_lastRequest (hr : log.Receipts c) (hl : c.Kept)
    (ht : (c.hub.client y).phase.ticket? = some r.ticket)
    (hheld : c.hub.Holds (c.hub.client y).device r) : r = c.lastRequest y := by
  obtain ⟨hkey, hpositions⟩ := hl.routed.held y r.ticket r ht hheld rfl
  obtain ⟨ticket, key, positions⟩ := r
  unfold Course.lastRequest
  rw [hr.ticket y ticket ht, ← hkey, ← hpositions]

/-- The answer to the request of a client is what the model says about this request. -/
theorem answers_of_lays (hr : log.Receipts c) (hl : c.Kept) (hlays : c.hub.Lays e mid)
    (hjournal : mid.journal ⊆ hub.journal) (hextends : c.hub.Extends hub)
    (ht : (c.hub.client y).phase.ticket? = some t)
    (hmem : (t, answer) ∈ (mid.device (c.hub.client y).device).results) :
    (log.follow c e).Answers hub (c.hub.client y).device (c.lastRequest y) answer := by
  rcases hlays.mem hmem with hbefore | ⟨batch, run, taken, held, hrun, called, hmem⟩
  · exact (hr.published y t answer ht hbefore).extend hextends (calls_subset_follow log c e)
  · obtain ⟨g, hg, r, hrb, rfl, hkey, loaded, hloaded, hcall, hsaid⟩ :=
      Device.runBatch_says hrun hmem
    rw [← hr.eq_lastRequest hl ht (held r hrb)]
    refine ⟨⟨_, g.1, g.2⟩, ?_, rfl, hkey, loaded, hextends.getElem?_models hloaded, ?_, hsaid⟩
    · rw [calls_follow_of_batch taken]
      exact List.mem_append_left _ (List.mem_reverse.mpr (List.mem_map_of_mem hg))
    · rw [(hextends.device _).2]
      exact hjournal (called _ hcall)

/-- Nothing lies on a device under a ticket that was not handed out yet. -/
theorem ticket?_of_lays (hl : c.Kept) (hlays : c.hub.Lays e mid) (hticket : c.ticketOf? y = some t)
    (hmem : (t, answer) ∈ (mid.device (c.hub.client y).device).results) :
    (c.hub.client y).phase.ticket? = some t := by
  have hout : t ∈ c.hub.outstanding (c.hub.client y).device := by
    rcases hlays.mem hmem with hbefore | ⟨batch, run, -, held, hrun, -, hmem⟩
    · exact Hub.mem_outstanding_of_published hbefore
    · obtain ⟨g, -, r, hrb, rfl, -⟩ := Device.runBatch_says hrun hmem
      exact (held r hrb).mem_outstanding
  have hlt := hl.tickets.lt_nextTicket hout
  unfold Course.ticketOf? at hticket
  split at hticket
  · cases hticket
    exact absurd hlt (Nat.lt_irrefl _)
  · exact hticket

theorem tickets_callsFor (i : Nat) (batch : List Request) :
    tickets ((callsFor i batch).flatMap (·.requests)) = tickets batch := by
  unfold callsFor tickets
  rw [List.flatMap_map]
  exact Multiset.coe_eq_coe.mpr ((Device.groups_perm batch).map _)

/-- The requests of a batch are called for when their answers are laid out. -/
theorem called_of_lays (hr : log.Receipts c) (hlays : c.hub.Lays e mid) (i : Nat) :
    tickets (((log.follow c e).callsOn i).flatMap (·.requests)) =
      (mid.device i).published + (c.returned i : Multiset Nat) := by
  cases hlays with
  | nothing hbatch results =>
    unfold callsOn Device.published
    rw [calls_follow_of_none hbatch, results]
    exact hr.called i
  | @batch j batch run taken held ok called results =>
    have hcalls : (log.follow c e).callsOn i =
        (if i = j then callsFor j batch else []).reverse ++ log.callsOn i := by
      unfold callsOn
      rw [calls_follow_of_batch taken]
      exact callsOn_batch log j i batch
    rw [hcalls, List.flatMap_append, tickets_append, hr.called i]
    unfold Device.published
    rw [results]
    split
    · subst i
      have hrun : ((run.results.map (·.1) : List Nat) : Multiset Nat) = tickets batch :=
        Multiset.coe_eq_coe.mpr (Device.runBatch_tickets ok)
      have hreverse : tickets ((callsFor j batch).reverse.flatMap (·.requests)) =
          tickets ((callsFor j batch).flatMap (·.requests)) :=
        Multiset.coe_eq_coe.mpr (((List.reverse_perm _).flatMap_right _).map _)
      rw [hreverse, tickets_callsFor, List.map_append, ← Multiset.coe_add, hrun]
      abel
    · exact zero_add _

/-! ### What an event keeps -/

theorem follow (hr : log.Receipts c) (hl : c.Kept) (allowed : c.Allows (.event e))
    (ok : c.hub.act e = .ok hub) : (log.follow c e).Receipts (c.follow e hub) := by
  have hh := hl.handles ok
  have hframe := Hub.act_frame ok
  have hhome : ∀ x, (hub.client x).device = (c.hub.client x).device := fun x => (hframe.client x).1
  -- Nobody who waits or has an answer asks for more.
  have hbusy : ∀ {x}, (c.hub.client x).phase ≠ .idle → ∀ positions, e ≠ .request x positions := by
    rintro x hx positions rfl
    obtain ⟨-, -, hidle, -⟩ := allowed
    exact hx hidle
  have hwaits : ∀ {x t}, (c.hub.client x).phase.ticket? = some t →
      (c.follow e hub).lastRequest x = c.lastRequest x := fun {x t} ht =>
    Course.lastRequest_follow ok (hbusy (Phase.ne_idle_of_ticket? ht))
      fun _ s hs => by
        rw [hr.ticket x t ht]
        exact Option.some.inj (hs.symm.trans (Course.ticketOf?_of_ticket? ht))
  refine ⟨fun x t ht => ?_, fun i => ?_, fun x t answer ht hmem => ?_, fun x answer ha => ?_⟩
  · rcases hh.ticket_cases ok ht with ⟨hother, hold⟩ | ⟨rfl, hticket⟩
    · rw [← hr.ticket x t hold]
      exact Course.lastTicket_follow fun he => absurd he hother
    · exact Course.lastTicket_proceed hticket
  · obtain ⟨mid, hlays, hreturned⟩ := hh.published
    rw [hr.called_of_lays hlays, ← hreturned]
    rfl
  · obtain ⟨mid, hlays, hjournal, hmid⟩ := hh.mem hmem
    change (t, answer) ∈ (mid.device (hub.client x).device).results at hmid
    rw [hhome] at hmid
    have hold : (c.hub.client x).phase.ticket? = some t :=
      (hh.ticket_cases ok ht).elim (fun h => h.2) fun h => ticket?_of_lays hl hlays h.2 hmid
    rw [hwaits hold]
    show Chronicle.Answers _ hub (hub.client x).device _ _
    rw [hhome]
    exact hr.answers_of_lays hl hlays hjournal hframe.toExtends hold hmid
  · show Chronicle.Answers _ hub (hub.client x).device _ _ ∨ c.askedAfter e x = [] ∧ _
    rw [hhome]
    rcases hh.answer_cases ok ha with ⟨hticket, hold⟩ | ⟨rfl, rfl⟩ |
      ⟨t, mid, rfl, hticket, hlays, hjournal, hmid⟩
    · have hask := hbusy (x := x) (Phase.ne_idle_of_answer? hold)
      have hsame : (c.follow e hub).lastRequest x = c.lastRequest x :=
        Course.lastRequest_follow ok hask fun he t ht => by
          rw [hticket he] at ht
          cases ht
      rw [hsame, Course.askedAfter_of_ne hask]
      exact (hr.inHand x answer hold).imp_left fun h =>
        h.extend hframe.toExtends (calls_subset_follow log c e)
    · have hnothing : Function.update c.asked x [] x = [] := Function.update_self x [] c.asked
      exact .inr ⟨hnothing, rfl⟩
    · have hold := ticket?_of_lays hl hlays hticket hmid
      rw [hwaits hold]
      exact .inl (hr.answers_of_lays hl hlays hjournal hframe.toExtends hold hmid)

/-! ### What else is done -/

/-- A hub may change as long as nobody who has something under way notices. -/
theorem keep (hr : log.Receipts c)
    (said : ∀ call r answer, c.hub.Said call r answer → hub.Said call r answer)
    (results : ∀ i, (hub.device i).results = (c.hub.device i).results)
    (same : ∀ x, (hub.client x).phase ≠ .idle → hub.client x = c.hub.client x) :
    log.Receipts { c with hub } := by
  have hlast : ∀ {x}, hub.client x = c.hub.client x →
      Course.lastRequest { c with hub } x = c.lastRequest x := fun {x} hx => by
    unfold Course.lastRequest
    rw [hx]
  have hsaid : ∀ {i r answer}, log.Answers c.hub i r answer → log.Answers hub i r answer :=
    fun ⟨call, hcall, hdevice, h⟩ => ⟨call, hcall, hdevice, said call _ _ h⟩
  refine ⟨fun x t ht => ?_, fun i => ?_, fun x t answer ht hmem => ?_, fun x answer ha => ?_⟩
  · have hx := same x (Phase.ne_idle_of_ticket? ht)
    exact hr.ticket x t (hx ▸ ht)
  · show _ = (hub.device i).published + _
    unfold Device.published
    rw [results]
    exact hr.called i
  · have hx := same x (Phase.ne_idle_of_ticket? ht)
    change (hub.client x).phase.ticket? = some t at ht
    change (t, answer) ∈ (hub.device (hub.client x).device).results at hmem
    show log.Answers hub (hub.client x).device _ _
    rw [hlast hx, hx]
    rw [hx] at ht hmem
    rw [results] at hmem
    exact hsaid (hr.published x t answer ht hmem)
  · have hx := same x (Phase.ne_idle_of_answer? ha)
    change (hub.client x).phase.answer? = some answer at ha
    show log.Answers hub (hub.client x).device _ _ ∨ _
    rw [hlast hx, hx]
    rw [hx] at ha
    exact (hr.inHand x answer ha).imp_left hsaid

theorem after {c' : Course} {a : Course.Act} (hr : log.Receipts c) (hl : c.Kept)
    (allowed : c.Allows a) (ok : c.after a = .ok c') : (log.after c a).Receipts c' := by
  cases a with
  | load i loader path =>
    cases ok
    refine hr.keep (fun call r answer => .extend (.load c.hub i loader path)) (fun j => ?_)
      fun x _ => ?_
    · rcases c.hub.load_eq i loader path with he | ⟨models, -, he⟩
      · rw [he]
      · have hsame : ({ c.hub.device i with models } : Device).results =
          (c.hub.device i).results := rfl
        rw [he]
        exact Hub.results_setDevice hsame j
    · rcases c.hub.load_eq i loader path with he | ⟨models, -, he⟩ <;> rw [he]
      rfl
  | addClient i key =>
    obtain ⟨x, hub, hadd, rfl⟩ := Course.after_addClient_eq_ok ok
    obtain ⟨-, name, rfl⟩ := Hub.addClient_eq_ok hadd
    refine hr.keep (fun _ _ _ hsaid => hsaid) (fun _ => rfl) fun y hy => ?_
    rw [Hub.client_push] at hy ⊢
    split
    · rename_i hnew
      rw [if_pos hnew] at hy
      exact absurd rfl hy
    · rfl
  | event e =>
    obtain ⟨hub, hact, rfl⟩ := Course.after_event_eq_ok ok
    exact hr.follow hl allowed hact

end Receipts

/-- The chronicle of every course accounts for all its answers. -/
theorem Of.receipts (h : log.Of c) : log.Receipts c := by
  induction h with
  | start new =>
    refine ⟨fun x t ht => ?_, fun i => ?_, fun x t answer ht => ?_, fun x answer ha => ?_⟩
    · cases ht
    · obtain ⟨name, buffers, hd⟩ := Course.device_start new i
      rw [hd]
      rfl
    · cases ht
    · cases ha
  | act h allowed ok ih => exact ih.after h.reachable.kept allowed ok

end Chronicle

/-! ## Answers in hand -/

namespace Course

theorem answer?_of_collect? {answer : List Evaluation} {c : Course} {x : Nat} {hub : Hub}
    (hcollect : c.hub.collect? x = some (answer, hub)) :
    (c.hub.client x).phase.answer? = some answer := by
  unfold Hub.collect? at hcollect
  split at hcollect
  · rename_i hp
    cases hcollect
    rw [hp]
    rfl
  · cases hcollect

namespace Reachable

variable {c : Course} {x : Nat} {answer : List Evaluation}

/-- A client that has its answer has as many evaluations as it asked for. -/
theorem length_answer (hc : c.Reachable) (ha : (c.hub.client x).phase.answer? = some answer) :
    answer.length = (c.asked x).length := by
  obtain ⟨log, hlog⟩ := Chronicle.exists_of_reachable hc
  rcases hlog.receipts.inHand x answer ha with hanswers | ⟨hasked, rfl⟩
  · exact hanswers.length_eq
  · rw [hasked]
    rfl

/-- If its model looks at one position at a time, its answer is what the model says of each. -/
theorem answer_eq_map (hc : c.Reachable) (ha : (c.hub.client x).phase.answer? = some answer)
    {loaded : LoadedModel} {f : Position → Evaluation}
    (hloaded : (c.hub.device (c.hub.client x).device).models[(c.hub.client x).key]? = some loaded)
    (hf : ∀ ps, loaded.model.evaluate ps = ps.map f) : answer = (c.asked x).map f := by
  obtain ⟨log, hlog⟩ := Chronicle.exists_of_reachable hc
  rcases hlog.receipts.inHand x answer ha with
    ⟨call, -, hdevice, hkey, loaded', hloaded', -, hsaid⟩ | ⟨hasked, rfl⟩
  · rw [hdevice, ← hkey] at hloaded'
    obtain rfl := Option.some.inj (hloaded'.symm.trans hloaded)
    exact hsaid.eq_map hf
  · rw [hasked]
    rfl

end Reachable

end Course

end Goban
