import Goban.Proofs.Batch.Balance

/-!
# Answers reach those who asked

Batching loses no request, doubles none, and gives nobody the answer to another one's request
(`Course.Reachable.delivers`). Requests are told apart by their tickets, so a client gets what was
said about its own request even if somebody else has asked about the same positions.
-/

namespace Goban

namespace Chronicle

variable {log : Chronicle} {c : Course}

/-- Nothing is lost, doubled, or given to another one than the client who asked. -/
structure Delivers (log : Chronicle) (c : Course) : Prop where
  /-- Each ticket of a device is in one place: its request is pending or in one batch, or its answer
  is laid out or was returned. -/
  places : ∀ i, tickets (c.hub.device i).pending + c.hub.totalOn i Phase.taken +
      c.hub.flushedOn i + (c.hub.device i).published + (c.returned i : Multiset Nat) =
    .range (c.hub.device i).nextTicket
  /-- The calls of the models are those that were measured, in their order. -/
  measured : List.Forall₂ c.hub.Measures c.hub.measuredCalls log.calls
  /-- They were made for the requests whose answers are laid out or were returned. -/
  called : ∀ i, tickets ((log.callsOn i).flatMap (·.requests)) =
    (c.hub.device i).published + (c.returned i : Multiset Nat)
  /-- No request is in two calls, or in one call twice. -/
  once : ∀ i, (tickets ((log.callsOn i).flatMap (·.requests))).Nodup
  /-- Who waits waits under the ticket of its last request. -/
  ticket : ∀ x t, (c.hub.client x).phase.ticket? = some t → c.lastTicket x = t
  /-- Who collects an answer gets as much as it asked for: what its model said about this very
  request in one of these calls. -/
  answers : ∀ x answer hub, c.hub.collect? x = some (answer, hub) →
    answer.length = (c.asked x).length ∧
      (c.asked x ≠ [] → log.Answers c.hub (c.hub.client x).device (c.lastRequest x) answer)
  /-- If the model looks at one position at a time, that is what it says of each. -/
  exact : ∀ x answer hub, c.hub.collect? x = some (answer, hub) → ∀ loaded f,
    (c.hub.device (c.hub.client x).device).models[(c.hub.client x).key]? = some loaded →
      (∀ ps, loaded.model.evaluate ps = ps.map f) → answer = (c.asked x).map f

theorem Of.all_delivered (h : log.Of c) : log.Delivers c := by
  have hl := h.reachable.kept
  have hr := h.receipts
  refine ⟨hl.tickets.issued, h.balances.2.measured, hr.called, fun i => ?_, hr.ticket,
    fun x answer hub hcollect => ?_, fun x answer hub hcollect loaded f hloaded hf => ?_⟩
  · have hrange := Multiset.nodup_range (c.hub.device i).nextTicket
    rw [← hl.tickets.issued] at hrange
    obtain ⟨-, hreturned, hdisjoint⟩ := Multiset.nodup_add.mp hrange
    rw [hr.called]
    refine Multiset.nodup_add.mpr ⟨hl.tickets.nodup_published i, hreturned, ?_⟩
    exact hdisjoint.mono_left (Multiset.le_add_left _ _)
  · have ha := Course.answer?_of_collect? hcollect
    refine ⟨h.reachable.length_answer ha, fun hasked => ?_⟩
    exact (hr.inHand x answer ha).resolve_right fun hnothing => hasked hnothing.1
  · exact h.reachable.answer_eq_map (Course.answer?_of_collect? hcollect) hloaded hf

end Chronicle

namespace Course

variable {c : Course}

/-- In every course nothing is lost, doubled, or given to another one than the client who asked. And
the order in which a batch calls its models does not matter. -/
theorem Reachable.delivers (hc : c.Reachable) :
    (∃ log : Chronicle, log.Of c) ∧ (∀ log : Chronicle, log.Of c → log.Delivers c) ∧
    ∀ i batch groups run, groups.Perm (Device.groups batch) →
      Device.runGroups (c.hub.device i).models groups = .ok run →
        ∃ run', Device.runBatch (c.hub.device i).models batch = .ok run' ∧
          run'.results.Perm run.results := by
  refine ⟨Chronicle.exists_of_reachable hc, fun _ h => h.all_delivered,
    fun i batch groups run hperm hrun => ?_⟩
  obtain ⟨run', hrun', hresults, -⟩ := Device.runGroups_perm hperm hrun
  exact ⟨run', hrun', hresults⟩

/-- The first client of a device gets what its model said about its request, under its ticket. -/
theorem delivers_to_first_client : ∃ c : Course, c.Reachable ∧ ∃ log : Chronicle, log.Delivers c ∧
    ∃ answer hub, c.hub.collect? 0 = some (answer, hub) ∧ answer.length = 1 ∧
      log.Answers c.hub 0 ⟨0, 0, [.initial .zero]⟩ answer := by
  have h₀ : (start [.empty "cpu" 1]).Reachable :=
    ⟨_, [], fun d hd => ⟨"cpu", 1, by rw [List.mem_singleton.mp hd]; rfl⟩, .rest⟩
  have h₁ := h₀.act (a := .load 0 (fun _ _ => .ok .uniform) "uniform") trivial rfl
  have h₂ := (h₁.act (a := .addClient 0 0) rfl rfl).act (a := .addClient 0 0) rfl rfl
  have h₃ := h₂.act (a := .event (.startGame 0 1))
    ⟨by decide, by decide, by decide, by rintro g ⟨⟩, by rintro g ⟨⟩⟩ rfl
  have h₄ := h₃.act (a := .event (.request 0 [.initial .zero]))
    ⟨1, .inl List.mem_cons_self, rfl, rfl⟩ rfl
  have h₅ := (h₄.act (a := .event (.proceed 0)) trivial rfl).act
    (a := .event (.proceed 0)) trivial rfl
  obtain ⟨⟨log, hlog⟩, hdelivers, -⟩ := h₅.delivers
  obtain ⟨hlength, hanswers⟩ := (hdelivers log hlog).answers 0 _ _ rfl
  exact ⟨_, h₅, log, hdelivers log hlog, _, _, rfl, hlength, hanswers nofun⟩

end Course

end Goban
