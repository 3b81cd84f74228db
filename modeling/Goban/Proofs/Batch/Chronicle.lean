import Mathlib.Algebra.BigOperators.Group.List.Basic
import Mathlib.Data.List.Forall2
import Goban.Proofs.Batch.Frames

/-!
# Chronicles of courses

A chronicle of a course holds what nobody remembers who takes part in it: which calls of clients have
returned, and for which requests the models were called (`Chronicle.Of`). Every course has one. The
run of a batch makes one call for each model of its requests, and counts what its answers are worth
(`Device.runGroups_accounts`).
-/

namespace Goban

/-! ## Runs of batches -/

/-- The number of requests and of positions in a call of a client for so many positions. -/
def loadOf (positions : Nat) : Nat × Nat := (if positions = 0 then 0 else 1, positions)

@[simp] theorem loadOf_zero : loadOf 0 = 0 := rfl

theorem loadOf_length {positions : List Position} (h : positions ≠ []) :
    loadOf positions.length = (1, positions.length) := by
  rw [loadOf, if_neg fun hzero => h (List.length_eq_zero_iff.mp hzero)]

/-- The requests and positions that were counted. -/
def BatchStats.load (s : BatchStats) : Nat × Nat := (s.requests, s.positions)

@[simp] theorem BatchStats.load_merge (s s' : BatchStats) :
    (s.merge s').load = s.load + s'.load := rfl

/-- The requests and positions in some answers. -/
def loadOfResults (results : List (Nat × List Evaluation)) : Nat × Nat :=
  (results.map fun e => loadOf e.2.length).sum

theorem loadOfResults_append (results results' : List (Nat × List Evaluation)) :
    loadOfResults (results ++ results') = loadOfResults results + loadOfResults results' := by
  simp [loadOfResults]

/-- Of several answers under different tickets one is handed out, and the others stay. -/
theorem loadOfResults_filter {results : List (Nat × List Evaluation)} {t : Nat}
    {answer : List Evaluation} (nodup : (results.map (·.1)).Nodup) (mem : (t, answer) ∈ results) :
    loadOf answer.length + loadOfResults (results.filter (·.1 != t)) = loadOfResults results := by
  induction results with
  | nil => cases mem
  | cons e results ih =>
    rw [List.map_cons, List.nodup_cons] at nodup
    obtain ⟨hfresh, hrest⟩ := nodup
    rcases List.mem_cons.mp mem with rfl | hmem
    · have hothers : results.filter (·.1 != t) = results := by
        refine List.filter_eq_self.mpr fun e' he' => ?_
        rw [bne_iff_ne]
        intro he
        have hkey : e'.1 ∈ results.map (·.1) := List.mem_map_of_mem he'
        rw [he] at hkey
        exact hfresh hkey
      rw [List.filter_cons_of_neg (by simp), hothers]
      simp [loadOfResults]
    · have hne : e.1 ≠ t := fun he => hfresh (he ▸ List.mem_map_of_mem (f := Prod.fst) hmem)
      rw [List.filter_cons_of_pos (by simpa using hne)]
      have hsum := ih hrest hmem
      simp only [loadOfResults, List.map_cons, List.sum_cons] at hsum ⊢
      rw [← hsum]
      abel

namespace Device

variable {models : List LoadedModel}

/-- Each request is answered with as much as it asked for. -/
theorem cut_lengths {requests : List Request} {answers : List Evaluation}
    (hlength : answers.length = (requests.flatMap (·.positions)).length) :
    (cut requests answers).map (·.2.length) = requests.map (·.positions.length) := by
  induction requests generalizing answers with
  | nil => rfl
  | cons r rest ih =>
    rw [List.flatMap_cons, List.length_append] at hlength
    rw [cut, List.map_cons, List.map_cons, ih (by rw [List.length_drop]; omega), List.length_take,
      Nat.min_eq_left (by omega)]

/-- What a call of a model counts is what its answers are worth, if no request is empty. -/
theorem loadOfResults_cut {requests : List Request} {answers : List Evaluation}
    (sized : ∀ r ∈ requests, r.positions ≠ [])
    (hlength : answers.length = (requests.flatMap (·.positions)).length) :
    loadOfResults (cut requests answers) =
      (requests.length, (requests.flatMap (·.positions)).length) := by
  have hresults : loadOfResults (cut requests answers) =
      (((cut requests answers).map (·.2.length)).map loadOf).sum := by
    rw [List.map_map]
    rfl
  rw [hresults, cut_lengths hlength, List.map_map]
  clear hresults hlength
  induction requests with
  | nil => rfl
  | cons r rest ih =>
    rw [List.map_cons, List.sum_cons, ih fun s hs => sized s (List.mem_cons_of_mem r hs),
      Function.comp_apply, loadOf_length (sized r List.mem_cons_self), List.flatMap_cons,
      List.length_append, List.length_cons, Prod.mk_add_mk, Nat.add_comm 1]

/-- What a run of a batch counts is what its answers are worth, and the calls that it makes are one
for each group, of the model of the group and for its positions. -/
theorem runGroups_accounts {groups : List (ModelKey × List Request)} {run : BatchRun}
    (sized : ∀ g ∈ groups, ∀ r ∈ g.2, r.positions ≠ [])
    (h : runGroups models groups = .ok run) :
    run.stats.load = loadOfResults run.results ∧ run.stats.batches = groups.length ∧
      run.stats.load = (groups.map fun g =>
        (g.2.length, (g.2.flatMap (·.positions)).length)).sum ∧
      List.Forall₂ (fun call g => ∃ loaded, models[g.1]? = some loaded ∧
        call = (loaded.path, g.2.flatMap (·.positions))) run.calls groups := by
  induction groups generalizing run with
  | nil =>
    cases h
    exact ⟨rfl, rfl, rfl, .nil⟩
  | cons g rest ih =>
    obtain ⟨key, requests⟩ := g
    obtain ⟨first, others, hfirst, hothers, rfl⟩ := runGroups_cons h
    obtain ⟨loaded, hloaded, hlength, rfl⟩ := runGroup_eq_ok hfirst
    obtain ⟨hload, hbatches, hsum, hcalls⟩ :=
      ih (fun g hg => sized g (List.mem_cons_of_mem _ hg)) hothers
    refine ⟨?_, ?_, ?_, .cons ⟨loaded, hloaded, rfl⟩ hcalls⟩
    · rw [BatchStats.load_merge, hload, loadOfResults_append,
        loadOfResults_cut (sized _ List.mem_cons_self) hlength]
      rfl
    · rw [List.length_cons, ← hbatches, Nat.add_comm]
      rfl
    · rw [BatchStats.load_merge, hsum, List.map_cons, List.sum_cons]
      rfl

end Device

/-! ## Chronicles -/

/-- A call of a client that has returned. -/
structure Completion where
  device : Nat
  client : Nat
  positions : List Position

/-- A call of a model of a device, with the requests that it was made for. -/
structure ModelCall where
  device : Nat
  key : ModelKey
  requests : List Request

/-- The positions that the model was called for. -/
def ModelCall.positions (call : ModelCall) : List Position := call.requests.flatMap (·.positions)

/-- What has been done in a course, the latest first. -/
structure Chronicle where
  completions : List Completion
  calls : List ModelCall

namespace Hub

/-- The batch that an event runs, with its device. -/
def batchOf? (h : Hub) : Event → Option (Nat × List Request)
  | .proceed x =>
    match (h.client x).phase with
    | .running _ batch => some ((h.client x).device, batch)
    | _ => none
  | .runFlush k => h.flushes[k]?
  | _ => none

end Hub

namespace Chronicle

/-- The calls of the models of a device. -/
def callsOn (log : Chronicle) (i : Nat) : List ModelCall := log.calls.filter (·.device == i)

/-- The calls for a batch of a device, one for each model. -/
def callsFor (i : Nat) (batch : List Request) : List ModelCall :=
  (Device.groups batch).map fun g => ⟨i, g.1, g.2⟩

theorem callsFor_filter (i j : Nat) (requests : List Request) :
    (callsFor i requests).filter (·.device == j) = if j = i then callsFor i requests else [] := by
  split
  · subst j
    refine List.filter_eq_self.mpr fun call hcall => ?_
    obtain ⟨g, -, rfl⟩ := List.mem_map.mp hcall
    exact beq_self_eq_true i
  · refine List.filter_eq_nil_iff.mpr fun call hcall => ?_
    obtain ⟨g, -, rfl⟩ := List.mem_map.mp hcall
    exact fun he => ‹¬j = i› (beq_iff_eq.mp he).symm

theorem callsOn_batch (log : Chronicle) (i j : Nat) (requests : List Request) :
    Chronicle.callsOn { log with calls := (callsFor i requests).reverse ++ log.calls } j =
      (if j = i then callsFor i requests else []).reverse ++ log.callsOn j := by
  unfold callsOn
  rw [List.filter_append, List.filter_reverse, callsFor_filter]

/-- The chronicle after an event. -/
def follow (log : Chronicle) (c : Course) (e : Event) : Chronicle where
  completions :=
    match e with
    | .collect x =>
      if (c.hub.collect? x).isSome then
        ⟨(c.hub.client x).device, x, c.asked x⟩ :: log.completions
      else log.completions
    | _ => log.completions
  calls :=
    match c.hub.batchOf? e with
    | some (i, batch) => (callsFor i batch).reverse ++ log.calls
    | none => log.calls

/-- The chronicle after something was done. -/
def after (log : Chronicle) (c : Course) : Course.Act → Chronicle
  | .event e => log.follow c e
  | .load _ _ _ | .addClient _ _ => log

/-- The chronicles of the courses on new devices. -/
inductive Of : Chronicle → Course → Prop
  | start {devices : List Device} (new : ∀ d ∈ devices, ∃ name buffers,
      Device.new name buffers = .ok d) : Of ⟨[], []⟩ (.start devices)
  | act {log : Chronicle} {c c' : Course} {a : Course.Act} (h : Of log c) (allowed : c.Allows a)
      (ok : c.after a = .ok c') : Of (log.after c a) c'

variable {log : Chronicle} {c : Course}

theorem Of.reachable (h : log.Of c) : c.Reachable := by
  induction h with
  | start new => exact ⟨_, [], new, .rest⟩
  | act _ allowed ok ih => exact ih.act allowed ok

/-- Every course has a chronicle. -/
theorem exists_of_reachable (h : c.Reachable) : ∃ log : Chronicle, log.Of c :=
  h.induction (P := fun c => ∃ log : Chronicle, log.Of c) (fun _ new => ⟨_, .start new⟩)
    fun _ _ _ ⟨_, h⟩ allowed ok => ⟨_, h.act allowed ok⟩

end Chronicle

end Goban
