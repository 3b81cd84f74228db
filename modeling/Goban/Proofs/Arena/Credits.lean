import Goban.Proofs.Arena.Tasks

/-!
# Credits

The arena counts a game when it takes it in: for the contender who played the color of the winner,
with that color and that ending (`Arena.count_takeIn`). Nothing else that is done in a run counts or
uncounts a game, so in every order of tasks the counts of both contenders are those of the games that
were taken in (`Run.Counted.perform`).
-/

namespace Goban

/-- The number of wins that ended in a way. -/
def ColorWins.count (w : ColorWins) : Ending → Nat
  | .bothPassed => w.passed
  | .resignation => w.resigned

theorem ColorWins.count_add {w w' : ColorWins} {g : Game} (ok : w.add g = .ok w') :
    ∃ ending, g.ending = some ending ∧ ∀ e, w'.count e = w.count e + if e = ending then 1 else 0 := by
  unfold add at ok
  split at ok
  · rename_i hending
    cases ok
    exact ⟨_, hending, fun e => by cases e <;> rfl⟩
  · rename_i hending
    cases ok
    exact ⟨_, hending, fun e => by cases e <;> rfl⟩
  · cases ok

namespace Wins

/-- The number of wins with a color that ended in a way. -/
def count (w : Wins) : Color → Ending → Nat
  | .black => w.black.count
  | .white => w.white.count

theorem total_eq (w : Wins) : w.total = w.count .black .bothPassed + w.count .black .resignation +
    (w.count .white .bothPassed + w.count .white .resignation) := rfl

/-- A win counts once, with the color of the winner and the ending of the game. -/
theorem count_add {w w' : Wins} {g : Game} (ok : w.add g = .ok w') :
    ∃ color ending, g.winner = some color ∧ g.ending = some ending ∧ ∀ c e,
      w'.count c e = w.count c e + if c = color ∧ e = ending then 1 else 0 := by
  unfold add at ok
  split at ok
  · rename_i hwinner
    obtain ⟨black, hadd, ok⟩ := bind_eq_ok ok
    cases ok
    obtain ⟨ending, hending, hcount⟩ := ColorWins.count_add hadd
    refine ⟨_, ending, hwinner, hending, fun c e => ?_⟩
    cases c with
    | black => simpa [count] using hcount e
    | white => simp [count]
  · rename_i hwinner
    obtain ⟨white, hadd, ok⟩ := bind_eq_ok ok
    cases ok
    obtain ⟨ending, hending, hcount⟩ := ColorWins.count_add hadd
    refine ⟨_, ending, hwinner, hending, fun c e => ?_⟩
    cases c with
    | black => simp [count]
    | white => simpa [count] using hcount e
  · cases ok

end Wins

namespace Arena

variable {a a' : Arena} {table : Option TableSpec} {game : Nat} {g : Game}
  {blackSummary whiteSummary : String}

/-- The wins of the target or of the evaluated contender. -/
def winsOf (a : Arena) (target : Bool) : Wins := if target then a.target.wins else a.evaluated.wins

theorem winsOf_contender (a : Arena) (game : Nat) (color : Color) :
    a.winsOf (targetPlays game color) = (a.contender game color).wins := by
  unfold winsOf contender targetPlays
  split <;> rfl

theorem winsOf_setContender (a : Arena) (game : Nat) (color : Color) (x : Contender) (t : Bool) :
    (a.setContender game color x).winsOf t =
      if t = targetPlays game color then x.wins else a.winsOf t := by
  unfold winsOf setContender targetPlays
  cases targetIsBlack game == (color == .black) <;> cases t <;> rfl

/-- A game that is taken in counts once. -/
theorem count_takeIn (ok : a.takeIn table game g blackSummary whiteSummary = .ok a') :
    ∃ color ending, g.winner = some color ∧ g.ending = some ending ∧ ∀ t c e,
      (a'.winsOf t).count c e = (a.winsOf t).count c e +
        if t = targetPlays game color ∧ c = color ∧ e = ending then 1 else 0 := by
  obtain ⟨color, wins, hwinner, hadd, number, records, tables, rfl⟩ := takeIn_eq_ok ok
  obtain ⟨color', ending, hwinner', hending, hcount⟩ := Wins.count_add hadd
  obtain rfl : color = color' := Option.some.inj (hwinner.symm.trans hwinner')
  refine ⟨color, ending, hwinner, hending, fun t c e => ?_⟩
  show ((a.setContender game color _).winsOf t).count c e = _
  rw [winsOf_setContender]
  by_cases ht : t = targetPlays game color
  · subst ht
    simp only [if_pos, true_and, winsOf_contender, hcount]
  · simp [ht]

def total (a : Arena) : Nat := a.evaluated.wins.total + a.target.wins.total

theorem total_takeIn (ok : a.takeIn table game g blackSummary whiteSummary = .ok a') :
    a'.total = a.total + 1 := by
  obtain ⟨color, ending, -, -, hcount⟩ := count_takeIn ok
  have hsum : ∀ b : Arena, b.total = (b.winsOf false).total + (b.winsOf true).total := fun _ => rfl
  simp only [hsum, Wins.total_eq, hcount]
  cases targetPlays game color <;> cases color <;> cases ending <;> simp only [reduceCtorEq, and_self,
    and_true, and_false, if_true, if_false] <;> omega

end Arena

/-! ## Counting -/

/-- A property that becomes true at one place is true at one more. -/
theorem countP_range_update {p q : Nat → Bool} {i n : Nat} (hi : i < n) (hp : p i = false)
    (same : ∀ j, j ≠ i → q j = p j) :
    (List.range n).countP q = (List.range n).countP p + if q i then 1 else 0 := by
  induction n with
  | zero => cases hi
  | succ n ih =>
    rw [List.range_succ, List.countP_append, List.countP_append]
    -- Below the changed place both count alike, above it the difference is carried along.
    by_cases hin : i = n
    · subst hin
      have hbefore : (List.range i).countP q = (List.range i).countP p :=
        List.countP_congr fun j hj => by rw [same j (Nat.ne_of_lt (List.mem_range.mp hj))]
      simp [hbefore, hp]
    · rw [ih (by omega)]
      simp only [List.countP_singleton, same n (Ne.symm hin)]
      omega

namespace Run

/-- Whether a game was taken in as a win of the target or of the evaluated contender, with a color and
an ending. -/
def isCredited (r : Run) (target : Bool) (color : Color) (ending : Ending) (game : Nat) : Bool :=
  match (r.worker game).stage with
  | .finished m => m.game.winner == some color && m.game.ending == some ending &&
      target == Arena.targetPlays game color
  | _ => false

/-- The games that were taken in have a winner and an ending, and the counts of both contenders are
those of these games. -/
structure Counted (r : Run) : Prop where
  decided : ∀ i < r.workers.size, ∀ m, (r.worker i).stage = .finished m →
    ∃ color ending, m.game.winner = some color ∧ m.game.ending = some ending
  count : ∀ target color ending, (r.arena.winsOf target).count color ending =
    (List.range r.workers.size).countP (r.isCredited target color ending)
  total : r.arena.total =
    (List.range r.workers.size).countP fun i => (r.worker i).isFinished

variable {r r' : Run} {i : Nat} {stage : Stage}

theorem isCredited_of_finished {m : Match} (h : (r.worker i).stage = .finished m) (target : Bool)
    (color : Color) (ending : Ending) : r.isCredited target color ending i =
      (m.game.winner == some color && m.game.ending == some ending &&
        target == Arena.targetPlays i color) := by
  rw [isCredited, h]

/-- A game that was taken in is credited to the contender who played the color of the winner. -/
theorem isCredited_iff {m : Match} {winner : Color} {way : Ending}
    (h : (r.worker i).stage = .finished m) (hwinner : m.game.winner = some winner)
    (hending : m.game.ending = some way) (target : Bool) (color : Color) (ending : Ending) :
    r.isCredited target color ending i = true ↔
      target = Arena.targetPlays i winner ∧ color = winner ∧ ending = way := by
  rw [isCredited_of_finished h, hwinner, hending]
  simp only [Bool.and_eq_true, beq_iff_eq, Option.some.injEq]
  constructor
  · rintro ⟨⟨rfl, rfl⟩, htarget⟩
    exact ⟨htarget, rfl, rfl⟩
  · rintro ⟨htarget, rfl, rfl⟩
    exact ⟨⟨rfl, rfl⟩, htarget⟩

theorem isCredited_of_not_finished (h : (r.worker i).isFinished = false) (target : Bool)
    (color : Color) (ending : Ending) : r.isCredited target color ending i = false := by
  unfold Worker.isFinished at h
  unfold isCredited
  split
  · rename_i hstage
    simp [hstage] at h
  · rfl

namespace Counted

/-- Before the first step no game was taken in. -/
theorem of_fresh (hfresh : ∀ i < r.workers.size, ∃ m, (r.worker i).stage = .fresh m)
    (hevaluated : r.arena.evaluated.wins = .none) (htarget : r.arena.target.wins = .none) :
    r.Counted := by
  have hnot : ∀ i ∈ List.range r.workers.size, (r.worker i).isFinished = false := fun i hi => by
    obtain ⟨m, hm⟩ := hfresh i (List.mem_range.mp hi)
    rw [Worker.isFinished, hm]
  refine ⟨fun i hi m hm => ?_, fun t c e => ?_, ?_⟩
  · obtain ⟨m', hm'⟩ := hfresh i hi
    cases hm'.symm.trans hm
  · have hwins : r.arena.winsOf t = .none := by cases t <;> assumption
    rw [hwins, List.countP_eq_zero.mpr fun i hi => by simp [isCredited_of_not_finished (hnot i hi)]]
    cases c <;> cases e <;> rfl
  · rw [Arena.total, hevaluated, htarget,
      List.countP_eq_zero.mpr fun i hi => by simp [hnot i hi]]
    rfl

theorem update (h : r.Counted) (hi : i < r.workers.size) (hold : (r.worker i).isFinished = false)
    (hworkers : r'.workers = (r.setStage i stage).workers)
    (decided : ∀ m, stage = .finished m →
      ∃ color ending, m.game.winner = some color ∧ m.game.ending = some ending)
    (count : ∀ t c e, (r'.arena.winsOf t).count c e =
      (r.arena.winsOf t).count c e + if r'.isCredited t c e i then 1 else 0)
    (total : r'.arena.total = r.arena.total + if (r'.worker i).isFinished then 1 else 0) :
    r'.Counted := by
  have hsize : r'.workers.size = r.workers.size := by rw [hworkers, size_setStage]
  have hworker : ∀ j, j ≠ i → r'.worker j = r.worker j := fun j hj => by
    rw [← worker_setStage_ne r stage hj, worker, worker, hworkers]
  refine ⟨fun j hj m hm => ?_, fun t c e => ?_, ?_⟩
  · by_cases hji : j = i
    · subst hji
      rw [worker, hworkers] at hm
      exact decided m ((congrArg Worker.stage (worker_setStage_self r stage hi)).symm.trans hm)
    · rw [hworker j hji] at hm
      exact h.decided j (hsize ▸ hj) m hm
  · rw [count, h.count, hsize]
    refine (countP_range_update hi (isCredited_of_not_finished hold t c e) fun j hj => ?_).symm
    rw [isCredited, isCredited, hworker j hj]
  · rw [total, h.total, hsize]
    refine (countP_range_update (p := fun j => (r.worker j).isFinished)
      (q := fun j => (r'.worker j).isFinished) hi hold fun j hj => ?_).symm
    rw [hworker j hj]

/-- Stages before the last one do not count. -/
theorem moveOn (h : r.Counted) (hi : i < r.workers.size) (hold : (r.worker i).isFinished = false)
    (hnew : ∀ w : Worker, { w with stage }.isFinished = false)
    (hworkers : r'.workers = (r.setStage i stage).workers)
    (hevaluated : r'.arena.evaluated = r.arena.evaluated)
    (htarget : r'.arena.target = r.arena.target) : r'.Counted := by
  have hgoes : (r'.worker i).isFinished = false := by
    have hself := worker_setStage_self r stage hi
    rw [worker, ← hworkers] at hself
    rw [worker, hself]
    exact hnew _
  refine h.update hi hold hworkers (fun m hm => ?_) (fun t c e => ?_) ?_
  · subst hm
    cases hnew default
  · rw [isCredited_of_not_finished hgoes, Arena.winsOf, Arena.winsOf, hevaluated, htarget]
    rfl
  · rw [hgoes, Arena.total, Arena.total, hevaluated, htarget]
    rfl

/-- A game that the arena takes in is counted. -/
theorem takeIn (h : r.Counted) (hi : i < r.workers.size) (hold : (r.worker i).isFinished = false)
    {m : Match} {a : Arena} {b w : String}
    (ok : r.arena.takeIn r.table i m.game b w = .ok a) (ns : Array Notice) :
    ({ r with arena := a, notices := ns }.setStage i (.finished m)).Counted := by
  obtain ⟨color, ending, hwinner, hending, hcount⟩ := Arena.count_takeIn ok
  have hworker := worker_setStage_self { r with arena := a, notices := ns } (.finished m) hi
  refine h.update hi hold rfl (fun m' hm => ?_) (fun t c e => ?_) ?_
  · cases hm
    exact ⟨color, ending, hwinner, hending⟩
  · simp only [isCredited_iff (congrArg Worker.stage hworker) hwinner hending]
    exact hcount t c e
  · rw [hworker]
    exact Arena.total_takeIn ok

theorem proceed (h : r.Counted) (hi : i < r.workers.size) (hnumber : (r.worker i).number = i)
    (hp : r.Proceeds i r') : r'.Counted := by
  cases hp with
  | begin stage | opened stage | turn stage | turned stage | ask stage | answer stage
  | close stage =>
    exact h.moveOn hi (by rw [Worker.isFinished, stage]) (fun _ => rfl) rfl rfl rfl
  | closed stage idle ok ns =>
    exact h.takeIn hi (by rw [Worker.isFinished, stage]) (hnumber ▸ ok) ns
  | stay => exact h

theorem perform (h : r.Counted) (hnumber : ∀ i < r.workers.size, (r.worker i).number = i)
    {t : Task} (ok : r.perform t = .ok r') : r'.Counted := by
  rcases perform_eq_ok ok with rfl | ⟨i, hi, hp⟩ | ⟨e, hub, -, -, rfl⟩
  · exact h
  · exact h.proceed hi (hnumber i hi) hp
  · exact ⟨h.decided, h.count, h.total⟩

end Counted

end Run

end Goban
