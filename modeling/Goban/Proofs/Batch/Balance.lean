import Goban.Proofs.Batch.Bookkeeping
import Goban.Proofs.Batch.Books
import Goban.Proofs.Batch.Receipts

/-!
# The counts of a device

In every course the chronicle and the devices agree (`Chronicle.Of.balances`): what a device has
counted is what its models were called for, and also what its clients have handed out together with
what it owes them. When no client of a device has a call for some positions under way, the counts are
those of the calls that have returned (`Chronicle.Of.agrees`).
-/

namespace Goban

namespace Hub

/-- Whether a measurement is that of a call. -/
def Measures (h : Hub) (m : Measurement) (call : ModelCall) : Prop :=
  ∃ loaded, (h.device call.device).models[call.key]? = some loaded ∧
    m = .call (h.device call.device).name loaded.path call.positions

/-- The models of a device and its name are all that matters. -/
theorem Measures.of_setDevice {h : Hub} {i : Nat} {d : Device} {m : Measurement} {call : ModelCall}
    (models : d.models = (h.device i).models) (name : d.name = (h.device i).name)
    (hm : (h.setDevice i d).Measures m call) : h.Measures m call := by
  unfold Measures at hm
  rcases device_setDevice_cases h i call.device d with hd | ⟨hi, -, hd⟩
  · rwa [hd] at hm
  · rw [hd, models, name, ← hi] at hm
    exact hm

theorem Measures.extend {h h' : Hub} {m : Measurement} {call : ModelCall} (he : h.Extends h')
    (hm : h.Measures m call) : h'.Measures m call := by
  obtain ⟨loaded, hloaded, rfl⟩ := hm
  exact ⟨loaded, he.getElem?_models hloaded, by rw [(he.device _).2]⟩

end Hub

/-- The requests and positions that a model was called for. -/
def ModelCall.load (call : ModelCall) : Nat × Nat := (call.requests.length, call.positions.length)

namespace Chronicle

/-- The calls of the clients of a device that have returned. -/
def completedOn (log : Chronicle) (i : Nat) : List Completion :=
  log.completions.filter (·.device == i)

/-- The requests and positions whose answers the clients of a device have handed out. -/
def paid (log : Chronicle) (i : Nat) : Nat × Nat :=
  ((log.completedOn i).map fun d => loadOf d.positions.length).sum

/-- The devices have counted what was called and what was asked, and measured every call. -/
structure Balances (log : Chronicle) (h : Hub) : Prop where
  paid : ∀ i, (h.device i).stats.load = log.paid i + h.owed i
  called : ∀ i, (h.device i).stats.load = ((log.callsOn i).map ModelCall.load).sum
  batches : ∀ i, (h.device i).stats.batches = (log.callsOn i).length
  measured : List.Forall₂ h.Measures h.measuredCalls log.calls
  single : ∀ call ∈ log.calls, call.positions ≠ [] ∧ ∀ r ∈ call.requests, r.key = call.key
  home : ∀ d ∈ log.completions, d.client < h.clients.size ∧ d.device = (h.client d.client).device

section Step

variable {log : Chronicle} {c c' : Course} {h h' : Hub} {e : Event} {i j x : Nat}
  {requests : List Request}

/-! ## Calls of models -/

theorem positions_ne_nil_of_mem_callsFor (sized : ∀ r ∈ requests, r.positions ≠ []) {call : ModelCall}
    (hcall : call ∈ callsFor i requests) :
    call.positions ≠ [] ∧ ∀ r ∈ call.requests, r.key = call.key := by
  obtain ⟨g, hg, rfl⟩ := List.mem_map.mp hcall
  refine ⟨fun hnil => ?_, fun r hr => Device.key_of_mem_groups hg hr⟩
  obtain ⟨key, hkey, rfl⟩ := List.mem_map.mp hg
  obtain ⟨r, hr, rfl⟩ := List.mem_map.mp (List.mem_eraseDups.mp hkey)
  have hmem : r ∈ requests.filter (·.key == r.key) := List.mem_filter.mpr ⟨hr, by simp⟩
  exact sized r hr (List.flatMap_eq_nil_iff.mp hnil r hmem)

theorem measuredCalls_measure (h : Hub) (name : String) (run : Device.BatchRun) :
    (h.measure (Hub.callsOf name run)).measuredCalls =
      (Hub.callsOf name run).reverse ++ h.measuredCalls := by
  unfold Hub.measuredCalls Hub.measure
  rw [List.filter_append, List.filter_eq_self.mpr fun m hm => ?_]
  obtain ⟨call, -, rfl⟩ := List.mem_map.mp (List.mem_reverse.mp hm)
  rfl

/-- Each call of a run is measured, and is that of one group of the requests. -/
theorem measures_callsOf {run : Device.BatchRun} (sized : ∀ r ∈ requests, r.positions ≠ [])
    (hrun : Device.runBatch (h.device i).models requests = .ok run) :
    List.Forall₂ h.Measures (Hub.callsOf (h.device i).name run) (callsFor i requests) := by
  obtain ⟨-, -, -, hcalls⟩ := Device.runGroups_accounts
    (fun g hg r hr => sized r (Device.mem_of_mem_groups hg hr)) hrun
  unfold Hub.callsOf callsFor
  rw [List.forall₂_map_left_iff, List.forall₂_map_right_iff]
  refine hcalls.imp fun call g hcall => ?_
  obtain ⟨loaded, hloaded, rfl⟩ := hcall
  exact ⟨loaded, hloaded, rfl⟩

/-! ## What is done in a course -/

theorem follow_of_nothing (hbatch : c.hub.batchOf? e = none)
    (answer : ∀ x, e = .collect x → c.hub.collect? x = none) : log.follow c e = log := by
  unfold follow
  rw [hbatch]
  cases e with
  | collect x =>
    simp only [answer x rfl, Option.isSome_none, Bool.false_eq_true, if_false]
  | startGame | endGame | request | proceed | flush | runFlush | stir => rfl

theorem follow_of_batch (hbatch : c.hub.batchOf? e = some (i, requests)) :
    log.follow c e = { log with calls := (callsFor i requests).reverse ++ log.calls } := by
  unfold follow
  rw [hbatch]
  cases e with
  | proceed | runFlush => rfl
  | startGame | endGame | request | collect | flush | stir => cases hbatch

theorem follow_of_answer {answer : List Evaluation}
    (hp : (c.hub.client x).phase = .answered answer) : log.follow c (.collect x) =
      { log with completions :=
          ⟨(c.hub.client x).device, x, c.asked x⟩ :: log.completions } := by
  unfold follow
  simp only [Hub.batchOf?, Hub.collect?, hp, Option.isSome_some, if_true]

/-- What leaves the books as they are leaves the chronicle in balance with them. -/
theorem Balances.of_sameBooks (hb : log.Balances h) (same : h.SameBooks h')
    (measures : ∀ m call, h.Measures m call → h'.Measures m call)
    (clients : ∀ x < h.clients.size,
      x < h'.clients.size ∧ (h'.client x).device = (h.client x).device) : log.Balances h' where
  paid i := by rw [same.stats, same.owed, hb.paid]
  called i := by rw [same.stats, hb.called]
  batches i := by rw [same.stats, hb.batches]
  measured := by
    rw [same.calls]
    exact hb.measured.imp measures
  single := hb.single
  home d hd := by
    obtain ⟨hx, hdevice⟩ := hb.home d hd
    exact ⟨(clients _ hx).1, hdevice.trans (clients _ hx).2.symm⟩

theorem Balances.extend (hb : log.Balances h) (he : h.Extends h') (same : h.SameBooks h') :
    log.Balances h' :=
  hb.of_sameBooks same (fun _ _ => .extend he) fun x hx => ⟨he.size ▸ hx, (he.client x).1⟩

theorem Balances.addClient (hb : log.Balances h) {key : ModelKey} (ok : h.addClient i key = .ok (x, h')) :
    log.Balances h' := by
  obtain ⟨-, name, rfl⟩ := Hub.addClient_eq_ok ok
  refine hb.of_sameBooks ⟨fun _ => rfl, fun j => ?_, rfl⟩ (fun _ _ => id) fun y hy => ⟨?_, ?_⟩
  · unfold Hub.owed
    have hidle : Phase.idle.inHand = 0 := rfl
    simp [Hub.totalOn, Hub.total, hidle, Hub.device]
  · rw [Array.size_push]
    exact Nat.lt_succ_of_lt hy
  · rw [Hub.client_push, if_neg (Nat.ne_of_lt hy)]

/-- A batch that is run is counted, called for and laid out at once. -/
theorem Balances.batch (hb : log.Balances h) {run : Device.BatchRun} (hi : i < h.devices.size)
    (sized : ∀ r ∈ requests, r.positions ≠ [])
    (hrun : Device.runBatch (h.device i).models requests = .ok run) :
    Balances { log with calls := (callsFor i requests).reverse ++ log.calls }
      ((h.measure (Hub.callsOf (h.device i).name run)).setDevice i ((h.device i).publish run)) := by
  obtain ⟨hload, hbatches, hsum, -⟩ := Device.runGroups_accounts
    (fun g hg r hr => sized r (Device.mem_of_mem_groups hg hr)) hrun
  have hdevice : ∀ j, ((h.measure (Hub.callsOf (h.device i).name run)).setDevice i
      ((h.device i).publish run)).device j = if j = i then (h.device i).publish run
        else h.device j := fun j => Hub.device_setDevice j _ hi
  have hcalled : ((callsFor i requests).map ModelCall.load).sum = run.stats.load := by
    rw [hsum, callsFor, List.map_map]
    rfl
  have hextends : h.Extends ((h.measure (Hub.callsOf (h.device i).name run)).setDevice i
      ((h.device i).publish run)) :=
    .trans (.measure _ _) (.setDevice List.prefix_rfl rfl)
  refine ⟨fun j => ?_, fun j => ?_, fun j => ?_, ?_, ?_, hb.home⟩
  · -- What the run counts is laid out at once, so as much more is owed.
    unfold Hub.owed
    rw [hdevice]
    split
    · subst j
      have hpaid := hb.paid i
      unfold Hub.owed at hpaid
      rw [Device.publish, BatchStats.load_merge, hpaid, hload, loadOfResults_append]
      show _ = _ + (h.totalOn i Phase.inHand + _)
      simp only [Chronicle.paid, completedOn]
      abel
    · exact hb.paid j
  · rw [hdevice, callsOn_batch, List.map_append, List.sum_append, ← hb.called, List.map_reverse,
      List.sum_reverse]
    split
    · subst j
      rw [hcalled, add_comm]
      rfl
    · exact (zero_add _).symm
  · rw [hdevice, callsOn_batch, List.length_append, ← hb.batches, List.length_reverse]
    split
    · subst j
      rw [callsFor, List.length_map, ← hbatches, Nat.add_comm]
      rfl
    · exact (Nat.zero_add _).symm
  · show List.Forall₂ _ (h.measure _).measuredCalls _
    rw [measuredCalls_measure]
    refine List.rel_append (List.rel_reverse ?_) (hb.measured.imp fun _ _ => .extend hextends)
    exact (measures_callsOf sized hrun).imp fun _ _ => .extend hextends
  · intro call hcall
    rcases List.mem_append.mp hcall with hcall | hcall
    · exact positions_ne_nil_of_mem_callsFor sized (List.mem_reverse.mp hcall)
    · exact hb.single call hcall

/-- An answer that is handed out is owed no more. -/
theorem Balances.answer (hb : log.Balances c.hub) (hc : c.Reachable) {answer : List Evaluation}
    (hp : (c.hub.client x).phase = .answered answer) :
    Balances { log with completions :=
      ⟨(c.hub.client x).device, x, c.asked x⟩ :: log.completions } (c.hub.setPhase x .idle) := by
  have hx : x < c.hub.clients.size := Hub.lt_size_of_ne_idle (by rw [hp]; exact nofun)
  have hlength : answer.length = (c.asked x).length := hc.length_answer (by rw [hp]; rfl)
  have hextends : c.hub.Extends (c.hub.setPhase x .idle) := .changeClient ⟨rfl, rfl⟩
  refine ⟨fun i => ?_, hb.called, hb.batches, hb.measured, hb.single, fun d hd => ?_⟩
  · -- The answer leaves the hand of the client and enters the chronicle.
    have htotal := Hub.totalOn_setPhase_to_zero (f := Phase.inHand) (p := .idle) hx rfl i
    rw [hp] at htotal
    have hpaid := hb.paid i
    unfold Hub.owed at hpaid ⊢
    rw [← htotal] at hpaid
    show (c.hub.device i).stats.load = _ + (_ + loadOfResults (c.hub.device i).results)
    rw [hpaid]
    unfold Chronicle.paid completedOn
    rw [List.filter_cons]
    by_cases hi : (c.hub.client x).device = i
    · rw [if_pos hi, if_pos (by simpa using hi), List.map_cons, List.sum_cons, ← hlength]
      simp only [Phase.inHand]
      abel
    · rw [if_neg hi, if_neg (by simpa using hi), add_zero]
  · rw [(hextends.client _).1, hextends.size]
    rcases List.mem_cons.mp hd with rfl | hd
    · exact ⟨hx, rfl⟩
    · exact hb.home d hd

/-- Every event that is allowed keeps the balance. -/
theorem Balances.follow {hub : Hub} (hb : log.Balances c.hub) (hc : c.Reachable) (h : c.Earnest)
    (allowed : c.Allows (.event e)) (ok : c.hub.act e = .ok hub) :
    (log.follow c e).Balances hub := by
  have hextends := (Hub.act_frame ok).toExtends
  cases hc.kept.effect h allowed ok with
  | nothing hbatch answer same =>
    rw [follow_of_nothing hbatch answer]
    exact hb.extend hextends same
  | @batch _ _ i requests run taken home sized hrun same =>
    rw [follow_of_batch taken]
    have hlaid := hb.batch home sized hrun
    refine hlaid.of_sameBooks same (fun m call hm => ?_)
      fun y hy => ⟨hextends.size ▸ hy, (hextends.client y).1⟩
    have hbefore : (c.hub.measure (Hub.callsOf (c.hub.device i).name run)).Measures m call :=
      .of_setDevice (d := (c.hub.device i).publish run) rfl rfl hm
    exact Hub.Measures.extend (h := c.hub) hextends hbefore
  | answer hp =>
    rw [follow_of_answer hp]
    exact hb.answer hc hp

end Step

/-! ## Every course -/

variable {log : Chronicle} {c : Course} {i : Nat}

theorem balances_start {devices : List Device}
    (new : ∀ d ∈ devices, ∃ name buffers, Device.new name buffers = .ok d) :
    Balances ⟨[], []⟩ (Course.start devices).hub := by
  have hdevice := Course.device_start new
  refine ⟨fun i => ?_, fun i => ?_, fun i => ?_, .nil, nofun, nofun⟩
  all_goals
    obtain ⟨name, buffers, hd⟩ := hdevice i
    simp only [Hub.owed, hd]
    rfl

/-- In every course clients wait for what they have asked for, and the chronicle is in balance with
the devices. -/
theorem Of.balances (h : log.Of c) : c.Earnest ∧ log.Balances c.hub := by
  induction h with
  | start new =>
    refine ⟨fun x hx => ?_, balances_start new⟩
    cases hx
  | @act log c c' a h allowed ok ih =>
    obtain ⟨hearnest, hb⟩ := ih
    refine ⟨hearnest.after allowed ok, ?_⟩
    cases a with
    | load i loader path =>
      cases ok
      refine hb.extend (.load _ _ _ _) ?_
      rcases c.hub.load_eq i loader path with he | ⟨models, -, he⟩
      · rw [he]
        exact .refl _
      · rw [he]
        exact .setDevice rfl rfl
    | addClient i key =>
      obtain ⟨x, hub, hadd, rfl⟩ := Course.after_addClient_eq_ok ok
      exact hb.addClient hadd
    | event e =>
      obtain ⟨hub, hact, rfl⟩ := Course.after_event_eq_ok ok
      exact hb.follow h.reachable hearnest allowed hact

end Chronicle

/-! ## Devices at rest -/

/-- No client of a device has a call for some positions under way. -/
def Course.IsQuiet (c : Course) (i : Nat) : Prop :=
  ∀ x, (c.hub.client x).device = i → (c.hub.client x).phase.isUnderway = true → c.asked x = []

namespace Course

variable {c : Course} {i : Nat}

theorem Kept.asking_eq_zero (hl : c.Kept) (h : c.Earnest) (quiet : c.IsQuiet i) :
    (c.hub.device i).asking = 0 := by
  rw [hl.tickets.asking, Multiset.card_eq_zero]
  refine Multiset.eq_zero_of_forall_notMem fun t ht => ?_
  obtain ⟨x, hx, hticket⟩ := hl.tickets.exists_owner ht
  exact h x (Phase.isBusy_of_ticket? hticket)
    (quiet x hx (Phase.isUnderway_of_ticket? hticket))

theorem Kept.isQuiet_of_games_eq_nil (hl : c.Kept) (hgames : c.games = []) (i : Nat) :
    c.IsQuiet i := by
  intro x _ hunderway
  obtain ⟨y, hg, -⟩ := hl.census.exists_leads hunderway
  rw [hgames] at hg
  rcases hg with hg | hg <;> cases hg

/-- A client that asked for nothing has nothing in its hand. -/
theorem Reachable.inHand_eq_zero (hc : c.Reachable) {x : Nat} (hasked : c.asked x = []) :
    (c.hub.client x).phase.inHand = 0 := by
  have hnil : ∀ answer, (c.hub.client x).phase.answer? = some answer → answer.length = 0 :=
    fun answer ha => by
      rw [hc.length_answer ha, hasked]
      rfl
  cases hp : (c.hub.client x).phase with
  | rejoining answer => rw [Phase.inHand, hnil answer (by rw [hp]; rfl), loadOf_zero]
  | answered answer => rw [Phase.inHand, hnil answer (by rw [hp]; rfl), loadOf_zero]
  | idle | leaving | submitting | awake | asleep | running | opening | closing | held => rfl

theorem Reachable.totalOn_inHand_eq_zero (hc : c.Reachable) (quiet : c.IsQuiet i) :
    c.hub.totalOn i Phase.inHand = 0 := by
  refine List.sum_eq_zero fun load hload => ?_
  obtain ⟨y, hy, rfl⟩ := List.mem_map.mp hload
  obtain ⟨x, hx, rfl⟩ := List.getElem_of_mem hy
  have hclient : c.hub.clients.toList[x] = c.hub.client x := by
    simp [Hub.client, Array.getD_eq_getD_getElem?, show x < c.hub.clients.size by simpa using hx]
  rw [hclient]
  split
  · rename_i hdevice
    cases hunderway : (c.hub.client x).phase.isUnderway with
    | false => exact Phase.inHand_of_not_underway hunderway
    | true => exact hc.inHand_eq_zero (quiet x hdevice hunderway)
  · rfl

end Course

namespace Chronicle

variable {log : Chronicle} {c : Course} {i : Nat}

theorem sum_loadOf (completions : List Completion) :
    (completions.map fun d => loadOf d.positions.length).sum =
      (completions.countP fun d => !d.positions.isEmpty,
        (completions.map (·.positions.length)).sum) := by
  induction completions with
  | nil => rfl
  | cons d completions ih =>
    rw [List.map_cons, List.sum_cons, ih, List.countP_cons, List.map_cons, List.sum_cons]
    cases hd : d.positions with
    | nil => simp
    | cons position positions => simp [loadOf, Nat.add_comm]

theorem sum_load (calls : List ModelCall) : (calls.map ModelCall.load).sum =
    ((calls.map (·.requests.length)).sum, (calls.map (·.positions.length)).sum) := by
  induction calls with
  | nil => rfl
  | cons call calls ih =>
    rw [List.map_cons, List.sum_cons, ih]
    rfl

/-- The counts of a device agree with the chronicle: at any time with the calls of its models, each of
which was for some positions of requests for one model, and when nobody asks also with the calls of its
clients. -/
structure Agrees (log : Chronicle) (c : Course) (i : Nat) : Prop where
  batches : (c.hub.device i).stats.batches = (log.callsOn i).length
  requests : (c.hub.device i).stats.requests = ((log.callsOn i).map (·.requests.length)).sum
  positions : (c.hub.device i).stats.positions = ((log.callsOn i).map (·.positions.length)).sum
  single : ∀ call ∈ log.callsOn i,
    call.positions ≠ [] ∧ ∀ r ∈ call.requests, r.key = call.key
  /-- With no request in a queue, a batch or among the answers, some answers may still be on their way
  back to the callers. -/
  asking : (c.hub.device i).asking = 0 → (c.hub.device i).stats.load =
    ((log.completedOn i).countP fun d => !d.positions.isEmpty,
      ((log.completedOn i).map (·.positions.length)).sum) + c.hub.totalOn i Phase.inHand
  quiet : c.IsQuiet i →
    (c.hub.device i).stats.requests =
        ((log.completedOn i).countP fun d => !d.positions.isEmpty) ∧
      (c.hub.device i).stats.positions = ((log.completedOn i).map (·.positions.length)).sum

/-- In every course the counts of every device agree with its chronicle. -/
theorem Of.agrees (h : log.Of c) (i : Nat) : log.Agrees c i := by
  obtain ⟨hearnest, hb⟩ := h.balances
  have hl := h.reachable.kept
  have hcalled := (hb.called i).trans (sum_load _)
  have hasking : (c.hub.device i).asking = 0 → (c.hub.device i).stats.load =
      ((log.completedOn i).countP fun d => !d.positions.isEmpty,
        ((log.completedOn i).map (·.positions.length)).sum) + c.hub.totalOn i Phase.inHand := by
    intro hzero
    -- No answer is laid out, so all that is owed is in the hands of the clients.
    have hsum := hl.asking_eq i
    have hresults : (c.hub.device i).results = [] := List.length_eq_zero_iff.mp (by omega)
    rw [hb.paid, ← sum_loadOf, Hub.owed, hresults]
    rfl
  refine ⟨hb.batches i, congrArg Prod.fst hcalled, congrArg Prod.snd hcalled,
    fun call hcall => hb.single call (List.mem_filter.mp hcall).1, hasking, fun quiet => ?_⟩
  have hload := hasking (hl.asking_eq_zero hearnest quiet)
  rw [h.reachable.totalOn_inHand_eq_zero quiet, add_zero] at hload
  exact ⟨congrArg Prod.fst hload, congrArg Prod.snd hload⟩

end Chronicle

end Goban
