import Goban.Proofs.Arena.Credits
import Goban.Proofs.Arena.Start

/-!
# Agreement of runs

What comes of the games of a run does not depend on the order in which its threads take their steps,
nor on the devices of the models and the number of batches they may run at once
(`Run.Of.same_results`). In every order all workers stay on track and all counts are those of the
games that were taken in (`Run.Of.standing`), so a game that is finished is the one end of the match
that the configuration gives it.
-/

namespace Goban

/-- Two configurations for the same games. The devices of the models and the number of batches that a
device may run at once may differ. -/
def Config.SameGames (config config' : Config) : Prop :=
  ∃ first second buffers, config' =
    { config with evaluatedDevice := first, targetDevice := second, buffers }

namespace Run

/-- A run of a new arena after some tasks, in whatever order. -/
def Of (loader : Loader) (config : Config) (r : Run) : Prop :=
  ∃ ns stamp a table clockSeed s tasks, Arena.new config loader stamp = (ns, .ok a) ∧
    a.plan = .ok table ∧ start a table clockSeed = .ok s ∧ s.performAll tasks = .ok r

/-- What comes of the tasks of a run of a new arena, if it gets that far. -/
def attempt (loader : Loader) (config : Config) (tasks : List Task) : Option Run := do
  let a ← (Arena.new config loader ⟨0, 0⟩).2.toOption
  let table ← a.plan.toOption
  let s ← (start a table 0).toOption
  (s.performAll tasks).toOption

/-- The games of two runs have the same moves and results, and are counted alike. -/
structure SameResults (n : Nat) (r r' : Run) : Prop where
  games : ∀ i < n, ∃ m m', (r.worker i).stage = .finished m ∧ (r'.worker i).stage = .finished m' ∧
    m.game.unnamed = m'.game.unnamed
  counts : ∀ target color ending, (r.arena.winsOf target).count color ending =
    (r'.arena.winsOf target).count color ending

/-- Every game of a run is counted once: for the contender who played the color of the winner, who is
the target if the winner is black and the number of the game is odd or neither is so. -/
structure CreditsEach (n : Nat) (r : Run) : Prop where
  once : ∀ i < n, ∃ m color ending, (r.worker i).stage = .finished m ∧
    m.game.winner = some color ∧ m.game.ending = some ending ∧
      ∀ t c e, r.isCredited t c e i = true ↔
        (t = true ↔ (color = .black ↔ i % 2 = 1)) ∧ c = color ∧ e = ending
  counts : ∀ target color ending, (r.arena.winsOf target).count color ending =
    (List.range n).countP (r.isCredited target color ending)
  total : r.arena.evaluated.wins.total + r.arena.target.wins.total = n

variable {loader loader' : Loader} {say : String → Position → Evaluation} {config config' : Config}
  {r r' : Run} {n : Nat}

theorem exists_finished_of_isFinished (hdone : r.isFinished = true) {i : Nat}
    (hi : i < r.workers.size) : ∃ m, (r.worker i).stage = .finished m := by
  have hlast : (r.worker i).isFinished = true := by
    rw [worker, Array.getD_eq_getD_getElem?, Array.getElem?_eq_getElem hi]
    exact Array.all_eq_true.mp hdone i hi
  unfold Worker.isFinished at hlast
  split at hlast
  · exact ⟨_, ‹_›⟩
  · cases hlast

theorem Counted.creditsEach (h : r.Counted) (hdone : r.isFinished = true) :
    r.CreditsEach r.workers.size := by
  refine ⟨fun i hi => ?_, h.count, ?_⟩
  · obtain ⟨m, hm⟩ := exists_finished_of_isFinished hdone hi
    obtain ⟨color, ending, hwinner, hending⟩ := h.decided i hi m hm
    refine ⟨m, color, ending, hm, hwinner, hending, fun t c e => ?_⟩
    rw [isCredited_iff hm hwinner hending, Bool.eq_iff_iff, Arena.targetPlays_iff]
  · refine h.total.trans ((List.countP_eq_length.mpr fun i hi => ?_).trans List.length_range)
    obtain ⟨m, hm⟩ := exists_finished_of_isFinished hdone (List.mem_range.mp hi)
    simp only [Worker.isFinished, hm]

namespace Of

/-- The order in which an arena plays all games by itself is one of all orders. -/
theorem of_playAll {a a' : Arena} {ns ns' : Array Notice} {stamp : Stamp} {table : Option TableSpec}
    {clockSeed : UInt64} {steps : Nat} (made : Arena.new config loader stamp = (ns, .ok a))
    (planned : a.plan = .ok table) (ok : playAll a table clockSeed steps = .ok (ns', a')) :
    ∃ r, Of loader config r ∧ r.isFinished = true ∧ r.arena = a' := by
  unfold playAll at ok
  obtain ⟨s, hstart, ok⟩ := bind_eq_ok ok
  obtain ⟨r, hadvance, ok⟩ := bind_eq_ok ok
  change (if r.isFinished = true then _ else _) = _ at ok
  split at ok
  · cases ok
    obtain ⟨tasks, htasks⟩ := exists_tasks_of_advance hadvance
    exact ⟨r, ⟨ns, stamp, a, table, clockSeed, s, tasks, made, planned, hstart, htasks⟩, ‹_›, rfl⟩
  · cases ok

theorem of_attempt {tasks : List Task} (ok : attempt loader config tasks = some r) :
    Of loader config r := by
  have hok : ∀ {ε α : Type} {e : Except ε α} {x : α}, e.toOption = some x → e = .ok x := by
    rintro ε α (_ | _) x hx
    · cases hx
    · exact congrArg _ (Option.some.inj hx)
  unfold attempt at ok
  obtain ⟨a, ha, ok⟩ := Option.bind_eq_some_iff.mp ok
  obtain ⟨table, htable, ok⟩ := Option.bind_eq_some_iff.mp ok
  obtain ⟨s, hs, ok⟩ := Option.bind_eq_some_iff.mp ok
  exact ⟨_, _, a, table, 0, s, tasks, Prod.ext rfl (hok ha), hok htable, hok hs, hok ok⟩

/-- In every order of tasks all workers are on track, and the counts are those of the games that were
taken in. -/
theorem standing (h : Of loader config r) (hsay : loader.Says say) (seeded : config.seed ≠ 0) :
    (∃ c, r.Tracked (fun game color => say (config.pathOf game color)) config.firstMatch c) ∧
      r.Counted ∧ r.workers.size = config.parallelGames := by
  obtain ⟨ns, stamp, a, table, clockSeed, s, tasks, made, -, begun, ok⟩ := h
  obtain ⟨htracked, hsize, hfresh, hevaluated, htarget⟩ := tracked_of_start hsay made seeded begun
  refine performAll_induction (P := fun r => (∃ c, r.Tracked _ config.firstMatch c) ∧ r.Counted ∧
    r.workers.size = config.parallelGames) ?_
      ⟨htracked, .of_fresh hfresh hevaluated htarget, hsize⟩ ok
  rintro r t r' ⟨⟨c, htracked⟩, hcounted, hsize⟩ ok
  exact ⟨htracked.perform ok, hcounted.perform htracked.number ok, (size_perform ok).trans hsize⟩

/-- All finished runs of the same games come to the same moves, results and counts, and count every
game once. -/
theorem same_results (h : Of loader config r) (h' : Of loader' config' r')
    (same : config.SameGames config') (seeded : config.seed ≠ 0) (hsay : loader.Says say)
    (hsay' : loader'.Says say) (done : r.isFinished = true) (done' : r'.isFinished = true) :
    SameResults config.parallelGames r r' ∧ r.CreditsEach config.parallelGames ∧
      r'.CreditsEach config.parallelGames := by
  obtain ⟨first, second, buffers, rfl⟩ := same
  obtain ⟨⟨c, htracked⟩, hcounted, hsize⟩ := h.standing hsay seeded
  obtain ⟨⟨c', htracked'⟩, hcounted', hsize'⟩ := h'.standing hsay' seeded
  change r'.workers.size = config.parallelGames at hsize'
  have hcredits := hsize ▸ hcounted.creditsEach done
  have hcredits' := hsize' ▸ hcounted'.creditsEach done'
  have hgames : ∀ i < config.parallelGames, ∃ m m', (r.worker i).stage = .finished m ∧
      (r'.worker i).stage = .finished m' ∧ m.game.unnamed = m'.game.unnamed := by
    intro i hi
    obtain ⟨m, hm⟩ := exists_finished_of_isFinished done (hsize.symm ▸ hi)
    obtain ⟨m', hm'⟩ := exists_finished_of_isFinished done' (hsize'.symm ▸ hi)
    refine ⟨m, m', hm, hm', ?_⟩
    -- Both continue the first match of the configuration to its end, which is only one.
    have htrack := htracked.track i (hsize.symm ▸ hi)
    have htrack' := htracked'.track i (hsize'.symm ▸ hi)
    rw [hm] at htrack
    rw [hm'] at htrack'
    cases htrack with
    | finished _ track ended =>
      cases htrack' with
      | finished _ track' ended' => exact congrArg Match.game (track.unique track' ended ended')
  refine ⟨⟨hgames, fun target color ending => ?_⟩, hcredits, hcredits'⟩
  rw [hcredits.counts, hcredits'.counts]
  refine List.countP_congr fun i hi => ?_
  obtain ⟨m, m', hm, hm', hgame⟩ := hgames i (List.mem_range.mp hi)
  rw [isCredited_of_finished hm, isCredited_of_finished hm', ← m.game.winner_unnamed,
    ← m.game.ending_unnamed, hgame, Game.winner_unnamed, Game.ending_unnamed]

end Of

end Run

/-! ## Two games that end at once -/

/-- Models that hold every position for lost. -/
def Loader.gloomy : Loader := fun path _ =>
  .ok ⟨path, List.map fun _ => ⟨List.replicate policySize .zero, -.one⟩⟩

/-- Two games between players that resign as soon as they expect to lose. -/
def Config.faint : Config :=
  { usual with
    evaluatedPath := "evaluated", targetPath := "target", parallelGames := 2
    evaluatedReadouts := 0, targetReadouts := 0, resignThreshold := .zero, seed := 1 }

namespace Run

/-- Two games in turns on one device, where their requests are one batch, against one game after the
other on two devices. -/
theorem Of.same_results_of_faint : ∃ r r' : Run, Of .gloomy .faint r ∧
    Of .gloomy { Config.faint with targetDevice := "other", buffers := 2 } r' ∧
      SameResults 2 r r' ∧ r.CreditsEach 2 ∧ r'.CreditsEach 2 := by
  have hsay : Loader.gloomy.Says fun _ _ => ⟨List.replicate policySize .zero, -.one⟩ := by
    rintro path device model hmodel ps
    cases hmodel
    rfl
  have hturns : (attempt .gloomy .faint [.worker 1, .worker 0, .worker 1, .worker 1, .worker 1,
      .hub (.proceed 2), .worker 0, .worker 0, .worker 0, .hub (.proceed 0), .hub (.proceed 0),
      .hub (.proceed 2), .worker 0, .worker 1, .worker 0, .worker 0, .worker 0, .worker 1, .worker 1,
      .worker 1]).any isFinished = true := by decide +kernel
  have hapart : (attempt .gloomy { Config.faint with targetDevice := "other", buffers := 2 }
      ((List.replicate 11 [Task.worker 0, .hub (.proceed 0)]).flatten ++
        (List.replicate 11 [Task.worker 1, .hub (.proceed 2)]).flatten)).any isFinished = true := by
    decide +kernel
  obtain ⟨r, hr, done⟩ := (Option.any_eq_true _ _).mp hturns
  obtain ⟨r', hr', done'⟩ := (Option.any_eq_true _ _).mp hapart
  have h := of_attempt hr
  have h' := of_attempt hr'
  exact ⟨r, r', h, h', h.same_results h' ⟨_, _, _, rfl⟩ (by decide) hsay hsay done done'⟩

end Run

end Goban
