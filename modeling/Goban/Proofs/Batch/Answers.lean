import Goban.Batch.Device

/-!
# The answers of a batch

A batch takes its requests apart by their models and puts the answers together again by lengths.
Main statements: every ticket of the batch gets exactly one answer (`Device.runBatch_tickets`), and
that answer is what the model of its request said about its positions in one of the calls that the
batch made (`Device.runBatch_says`). A batch fails only for a key without a model or for a model
that answers the wrong number of times (`Device.runBatch_eq_error`).
-/

namespace Goban

/-- The answer is what a model says about one of the requests that it is called for: of what it says
about all their positions, the part at the places of this one. -/
def Model.Says (m : Model) (call : List Request) (r : Request) (answer : List Evaluation) : Prop :=
  (m.evaluate (call.flatMap (·.positions))).length = (call.flatMap (·.positions)).length ∧
    ∃ before after : List Request, call = before ++ r :: after ∧
      answer = ((m.evaluate (call.flatMap (·.positions))).drop
        (before.flatMap (·.positions)).length).take r.positions.length

namespace Model.Says

variable {m : Model} {call : List Request} {r : Request} {answer : List Evaluation}

/-- A model says one thing about each position. -/
theorem length_eq (h : m.Says call r answer) : answer.length = r.positions.length := by
  obtain ⟨hlen, before, after, hcall, rfl⟩ := h
  rw [List.length_take, List.length_drop, hlen, hcall]
  simp only [List.flatMap_append, List.flatMap_cons, List.length_append]
  omega

/-- What a model says about one position at a time does not depend on the rest of the call. -/
theorem eq_map (h : m.Says call r answer) {f : Position → Evaluation}
    (hf : ∀ ps, m.evaluate ps = ps.map f) : answer = r.positions.map f := by
  obtain ⟨-, before, after, hcall, rfl⟩ := h
  rw [hf, hcall]
  simp

end Model.Says

namespace Device

/-! ## Requests by their models -/

/-- The requests for the model of the first one make the first group. -/
theorem groups_cons (r : Request) (rest : List Request) :
    groups (r :: rest) =
      (r.key, (r :: rest).filter (·.key == r.key)) :: groups (rest.filter (·.key != r.key)) := by
  have hkeys : (rest.map (·.key)).filter (fun k => !(k == r.key)) =
      (rest.filter (·.key != r.key)).map (·.key) := by
    rw [List.filter_map]
    rfl
  simp only [groups, List.map_cons, List.eraseDups_cons, hkeys, List.cons.injEq, true_and]
  apply List.map_congr_left
  intro k hk
  obtain ⟨s, hs, rfl⟩ := List.mem_map.mp (List.mem_eraseDups.mp hk)
  have hne : s.key ≠ r.key := by simpa using (List.mem_filter.mp hs).2
  have hr : (r.key == s.key) = false := by simpa using hne.symm
  simp only [List.filter_cons, hr, List.filter_filter, Bool.false_eq_true, if_false, Prod.mk.injEq,
    true_and]
  apply List.filter_congr
  intro q _
  by_cases hq : q.key = s.key <;> simp [hq, hne]

/-- No request of a batch is lost or doubled when the batch is taken apart. -/
theorem groups_perm (requests : List Request) :
    ((groups requests).flatMap (·.2)).Perm requests := by
  induction hn : requests.length using Nat.strongRecOn generalizing requests with
  | _ n ih =>
    cases requests with
    | nil => exact .refl _
    | cons r rest =>
      have hlt : (rest.filter (·.key != r.key)).length < n := by
        have := List.length_filter_le (fun q : Request => q.key != r.key) rest
        simp only [List.length_cons] at hn
        omega
      have hrest : (r :: rest).filter (fun q => !(q.key == r.key)) =
          rest.filter (·.key != r.key) := by
        simp [bne]
      rw [groups_cons, List.flatMap_cons]
      refine ((ih _ hlt _ rfl).append_left _).trans ?_
      rw [← hrest]
      exact List.filter_append_perm _ _

theorem key_of_mem_groups {requests : List Request} {g : ModelKey × List Request}
    (hg : g ∈ groups requests) {r : Request} (hr : r ∈ g.2) : r.key = g.1 := by
  obtain ⟨k, _, rfl⟩ := List.mem_map.mp hg
  simpa using (List.mem_filter.mp hr).2

theorem mem_of_mem_groups {requests : List Request} {g : ModelKey × List Request}
    (hg : g ∈ groups requests) {r : Request} (hr : r ∈ g.2) : r ∈ requests := by
  obtain ⟨k, _, rfl⟩ := List.mem_map.mp hg
  exact (List.mem_filter.mp hr).1

theorem exists_mem_of_mem_groups {requests : List Request} {g : ModelKey × List Request}
    (hg : g ∈ groups requests) : ∃ r ∈ requests, r.key = g.1 := by
  obtain ⟨k, hk, rfl⟩ := List.mem_map.mp hg
  obtain ⟨r, hr, hk⟩ := List.mem_map.mp (List.mem_eraseDups.mp hk)
  exact ⟨r, hr, hk⟩

/-! ## Cutting answers apart -/

theorem cut_tickets (requests : List Request) (answers : List Evaluation) :
    (cut requests answers).map (·.1) = requests.map (·.ticket) := by
  induction requests generalizing answers with
  | nil => rfl
  | cons r rest ih => simp [cut, ih]

/-- Each request gets the answers at the places of its own positions. -/
theorem mem_cut {requests : List Request} {answers : List Evaluation}
    {entry : Nat × List Evaluation} (h : entry ∈ cut requests answers) :
    ∃ before r after, requests = before ++ r :: after ∧ r.ticket = entry.1 ∧
      entry.2 = (answers.drop (before.flatMap (·.positions)).length).take r.positions.length := by
  induction requests generalizing answers with
  | nil => cases h
  | cons r rest ih =>
    rcases List.mem_cons.mp h with rfl | h
    · exact ⟨[], r, rest, rfl, rfl, rfl⟩
    · obtain ⟨before, s, after, rfl, hticket, hcut⟩ := ih h
      refine ⟨r :: before, s, after, rfl, hticket, ?_⟩
      rw [hcut, List.drop_drop, List.flatMap_cons, List.length_append]

/-! ## Calling the models -/

section Run

variable {models : List LoadedModel}

/-- A group fails if its key has no model or the model answers the wrong number of times. -/
theorem runGroup_eq_ok {key : ModelKey} {requests : List Request} {run : BatchRun}
    (h : runGroup models key requests = .ok run) :
    ∃ loaded, models[key]? = some loaded ∧
      (loaded.model.evaluate (requests.flatMap (·.positions))).length =
        (requests.flatMap (·.positions)).length ∧
      run = {
        results := cut requests (loaded.model.evaluate (requests.flatMap (·.positions)))
        stats := ⟨1, requests.length, (requests.flatMap (·.positions)).length⟩
        calls := [(loaded.path, requests.flatMap (·.positions))] } := by
  unfold runGroup at h
  split at h
  · cases h
  · rename_i loaded hloaded
    simp only at h
    split at h
    · rename_i hlen
      exact ⟨loaded, hloaded, hlen, (Except.ok.inj h).symm⟩
    · cases h

theorem runGroups_cons {key : ModelKey} {requests : List Request}
    {rest : List (ModelKey × List Request)} {run : BatchRun}
    (h : runGroups models ((key, requests) :: rest) = .ok run) :
    ∃ first others, runGroup models key requests = .ok first ∧
      runGroups models rest = .ok others ∧
      run = {
        results := first.results ++ others.results
        stats := first.stats.merge others.stats
        calls := first.calls ++ others.calls } := by
  rw [runGroups] at h
  obtain ⟨first, hf, h⟩ := bind_eq_ok h
  obtain ⟨others, ho, h⟩ := bind_eq_ok h
  exact ⟨first, others, hf, ho, (Except.ok.inj h).symm⟩

theorem runGroups_tickets {groups : List (ModelKey × List Request)} {run : BatchRun}
    (h : runGroups models groups = .ok run) :
    run.results.map (·.1) = (groups.flatMap (·.2)).map (·.ticket) := by
  induction groups generalizing run with
  | nil =>
    cases h
    rfl
  | cons g rest ih =>
    obtain ⟨key, requests⟩ := g
    obtain ⟨first, others, hfirst, hothers, rfl⟩ := runGroups_cons h
    obtain ⟨loaded, -, -, rfl⟩ := runGroup_eq_ok hfirst
    simp [cut_tickets, ih hothers]

theorem runGroups_says {groups : List (ModelKey × List Request)} {run : BatchRun}
    (h : runGroups models groups = .ok run) {entry : Nat × List Evaluation}
    (hentry : entry ∈ run.results) :
    ∃ g ∈ groups, ∃ r ∈ g.2, r.ticket = entry.1 ∧ ∃ loaded, models[g.1]? = some loaded ∧
      (loaded.path, g.2.flatMap (·.positions)) ∈ run.calls ∧
      loaded.model.Says g.2 r entry.2 := by
  induction groups generalizing run with
  | nil =>
    cases h
    cases hentry
  | cons g rest ih =>
    obtain ⟨key, requests⟩ := g
    obtain ⟨first, others, hfirst, hothers, rfl⟩ := runGroups_cons h
    obtain ⟨loaded, hloaded, hlen, rfl⟩ := runGroup_eq_ok hfirst
    rcases List.mem_append.mp hentry with hentry | hentry
    · obtain ⟨before, r, after, hrequests, hticket, hcut⟩ := mem_cut hentry
      have hr : r ∈ requests := hrequests ▸ List.mem_append_right _ List.mem_cons_self
      exact ⟨_, List.mem_cons_self, r, hr, hticket, loaded, hloaded,
        List.mem_append_left _ List.mem_cons_self, hlen, before, after, hrequests, hcut⟩
    · obtain ⟨g, hg, r, hr, hticket, loaded, hloaded, hcall, hsaid⟩ := ih hothers hentry
      exact ⟨g, List.mem_cons_of_mem _ hg, r, hr, hticket, loaded, hloaded,
        List.mem_append_right _ hcall, hsaid⟩

/-- Every ticket of a batch gets exactly one answer. -/
theorem runBatch_tickets {requests : List Request} {run : BatchRun}
    (h : runBatch models requests = .ok run) :
    (run.results.map (·.1)).Perm (requests.map (·.ticket)) := by
  rw [runGroups_tickets h]
  exact (groups_perm requests).map _

/-- Every answer of a batch is what the model of its request says about the request, in the call that
the batch made for all its requests for this model. -/
theorem runBatch_says {requests : List Request} {run : BatchRun}
    (h : runBatch models requests = .ok run) {entry : Nat × List Evaluation}
    (hentry : entry ∈ run.results) :
    ∃ g ∈ groups requests, ∃ r ∈ requests, r.ticket = entry.1 ∧ r.key = g.1 ∧
      ∃ loaded, models[g.1]? = some loaded ∧
        (loaded.path, g.2.flatMap (·.positions)) ∈ run.calls ∧
        loaded.model.Says g.2 r entry.2 := by
  obtain ⟨g, hg, r, hr, hticket, hsaid⟩ := runGroups_says h hentry
  exact ⟨g, hg, r, mem_of_mem_groups hg hr, hticket, key_of_mem_groups hg hr, hsaid⟩

theorem runGroups_cons_ok {key : ModelKey} {requests : List Request}
    {rest : List (ModelKey × List Request)} {first others : BatchRun}
    (hfirst : runGroup models key requests = .ok first)
    (hothers : runGroups models rest = .ok others) :
    runGroups models ((key, requests) :: rest) = .ok {
      results := first.results ++ others.results
      stats := first.stats.merge others.stats
      calls := first.calls ++ others.calls } := by
  rw [runGroups, hfirst, hothers]
  rfl

/-- The models may be called in any order: the answers stay the same. -/
theorem runGroups_perm {groups groups' : List (ModelKey × List Request)} (hp : groups.Perm groups')
    {run : BatchRun} (h : runGroups models groups = .ok run) :
    ∃ run', runGroups models groups' = .ok run' ∧ run'.results.Perm run.results ∧
      run'.stats = run.stats ∧ run'.calls.Perm run.calls := by
  induction hp generalizing run with
  | nil => exact ⟨run, h, .refl _, rfl, .refl _⟩
  | cons g _ ih =>
    obtain ⟨first, others, hfirst, hothers, rfl⟩ := runGroups_cons h
    obtain ⟨others', hothers', hresults, hstats, hcalls⟩ := ih hothers
    exact ⟨_, runGroups_cons_ok hfirst hothers', hresults.append_left _, by simp only [hstats],
      hcalls.append_left _⟩
  | swap g g' rest =>
    obtain ⟨first, others, hfirst, hothers, rfl⟩ := runGroups_cons h
    obtain ⟨second, last, hsecond, hlast, rfl⟩ := runGroups_cons hothers
    refine ⟨_, runGroups_cons_ok hsecond (runGroups_cons_ok hfirst hlast), ?_, ?_, ?_⟩
    · simp only [← List.append_assoc]
      exact List.perm_append_comm.append_right _
    · simp only [BatchStats.merge, BatchStats.mk.injEq]
      omega
    · simp only [← List.append_assoc]
      exact List.perm_append_comm.append_right _
  | trans _ _ ih ih' =>
    obtain ⟨run', h', hresults, hstats, hcalls⟩ := ih h
    obtain ⟨run'', h'', hresults', hstats', hcalls'⟩ := ih' h'
    exact ⟨run'', h'', hresults'.trans hresults, hstats'.trans hstats, hcalls'.trans hcalls⟩

theorem runGroups_eq_error {groups : List (ModelKey × List Request)} {fault : Fault}
    (hkeys : ∀ g ∈ groups, g.1 < models.length) (h : runGroups models groups = .error fault) :
    fault = .answerCount := by
  induction groups with
  | nil => cases h
  | cons g rest ih =>
    obtain ⟨key, requests⟩ := g
    have hkey : key < models.length := hkeys _ List.mem_cons_self
    rw [runGroups] at h
    cases hf : runGroup models key requests with
    | error e =>
      rw [hf] at h
      cases h
      rw [runGroup, List.getElem?_eq_getElem hkey] at hf
      simp only at hf
      split at hf
      · cases hf
      · exact (Except.error.inj hf).symm
    | ok first =>
      cases ho : runGroups models rest with
      | error e =>
        rw [hf, ho] at h
        cases h
        exact ih (fun g hg => hkeys g (List.mem_cons_of_mem _ hg)) ho
      | ok others =>
        rw [hf, ho] at h
        cases h

/-- Where all keys have models, a batch fails only for a wrong number of answers. -/
theorem runBatch_eq_error {requests : List Request} {fault : Fault}
    (hkeys : ∀ r ∈ requests, r.key < models.length) (h : runBatch models requests = .error fault) :
    fault = .answerCount := by
  refine runGroups_eq_error (fun g hg => ?_) h
  obtain ⟨r, hr, hk⟩ := exists_mem_of_mem_groups hg
  exact hk ▸ hkeys r hr

end Run

end Device

end Goban
