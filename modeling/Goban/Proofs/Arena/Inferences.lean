import Mathlib.Algebra.BigOperators.Fin
import Goban.Proofs.Arena.Agreement
import Goban.Proofs.Batch.Balance
import Goban.Proofs.Match.Inferences

/-!
# The inferences of a run

In any order of tasks each player has counted the positions of its client's calls that have returned
(`Run.Booked`), whatever the models answer. When all games were taken in nobody asks any more, so the
devices have counted as many positions as all players together
(`Run.inferences_balance`).
-/

namespace Goban

/-! ## What players have counted -/

namespace Match

variable {m : Match} {n : Color → Nat} {color : Color} {positions : List Position}
  {next : List Evaluation → Inquiry Match}

/-- The players have counted so many positions. -/
def Tallies (m : Match) (n : Color → Nat) : Prop := ∀ color, (m.player color).inferences = n color

/-- The count of one color with some more. -/
def plus (n : Color → Nat) (color : Color) (more : Nat) : Color → Nat :=
  fun color' => n color' + if color' = color then more else 0

/-- The rest of a turn of a color adds what it asks to the count of that color. -/
def WillTally (color : Color) (work : Inquiry Match) (n : Color → Nat) : Prop :=
  ∀ asked m, work.Asks (fun _ _ => True) asked m → m.Tallies (plus n color asked.flatten.length)

theorem Tallies.turn (h : m.Tallies n) (log : Array String) (verbose : Bool) :
    WillTally m.mover ({ m with log }.turn verbose) n := by
  intro asked m' hasks color
  rw [inferences_turn hasks, player_withLog, h]
  rfl

theorem WillTally.done (h : WillTally color (.done m) n) : m.Tallies n := by
  have hdone := h [] m (.done m)
  intro color'
  rw [hdone, plus, List.flatten_nil, List.length_nil, ite_self, Nat.add_zero]

theorem WillTally.answer (h : WillTally color (.ask positions next) n) (answer : List Evaluation) :
    WillTally color (next answer) (plus n color positions.length) := by
  intro asked m hasks color'
  rw [h _ m (.ask trivial hasks) color']
  unfold plus
  split
  · rw [List.flatten_cons, List.length_append, Nat.add_assoc]
  · rfl

end Match

namespace Chronicle

variable {log : Chronicle} {c : Course} {e : Event} {x y : Nat}

/-- The positions in the calls of a client that have returned. -/
def evaluatedFor (log : Chronicle) (x : Nat) : Nat :=
  ((log.completions.filter (·.client == x)).map (·.positions.length)).sum

/-- Only the client that hands out an answer gets more. -/
theorem evaluatedFor_follow (h : e ≠ .collect y) :
    (log.follow c e).evaluatedFor y = log.evaluatedFor y := by
  unfold evaluatedFor follow
  cases e with
  | collect x =>
    have hne : x ≠ y := fun he => h (he ▸ rfl)
    simp only
    split
    · rw [List.filter_cons_of_neg (by simpa using hne)]
    · rfl
  | startGame | endGame | request | proceed | flush | runFlush | stir => rfl

theorem evaluatedFor_collect {answer : List Evaluation} {hub : Hub}
    (hcollect : c.hub.collect? x = some (answer, hub)) :
    (log.follow c (.collect x)).evaluatedFor x = log.evaluatedFor x + (c.asked x).length := by
  unfold evaluatedFor follow
  simp only [hcollect, Option.isSome_some, if_true]
  rw [List.filter_cons_of_pos (by simp), List.map_cons, List.sum_cons, Nat.add_comm]

end Chronicle

/-! ## Workers and their seats -/

/-- The number of positions that were evaluated for both players of a game that was taken in. -/
def Worker.inferences (w : Worker) : Nat :=
  match w.stage with
  | .finished m => m.black.inferences + m.white.inferences
  | _ => 0

namespace Stage

variable {of : Color → Nat} {n : Color → Nat} {stage : Stage} {s s' : Seat}

/-- A stage of a worker that suits the seat of its clients, with players that have counted so many
positions. -/
inductive Suits (of : Color → Nat) (n : Color → Nat) : Stage → Seat → Prop where
  | fresh {m : Match} (tally : m.Tallies n) : Suits of n (.fresh m) .outside
  | opening {m : Match} (tally : m.Tallies n) : Suits of n (.opening m) .entering
  | opened {m : Match} (tally : m.Tallies n) : Suits of n (.opening m) .resting
  | playing {m : Match} (tally : m.Tallies n) : Suits of n (.playing m) .resting
  | thinking {color : Color} {work : Inquiry Match} (tally : Match.WillTally color work n) :
      Suits of n (.thinking (of color) work) .resting
  | waiting {color : Color} {positions : List Position} {next : List Evaluation → Inquiry Match}
      (tally : ∀ answer, Match.WillTally color (next answer) (Match.plus n color positions.length)) :
      Suits of n (.waiting (of color) next) (.asking color positions)
  | closing {m : Match} (tally : m.Tallies n) : Suits of n (.closing m) .leaving
  | closed {m : Match} (tally : m.Tallies n) : Suits of n (.closing m) .outside
  | finished {m : Match} (tally : m.Tallies n) : Suits of n (.finished m) .outside

/-- A worker does not mind that its game was opened or closed. -/
theorem Suits.drift (h : stage.Suits of n s) (drifts : s.Drifts s') : stage.Suits of n s' := by
  cases drifts with
  | stay => exact h
  | enter =>
    cases h with
    | opening tally => exact .opened tally
  | leave =>
    cases h with
    | closing tally => exact .closed tally

end Stage

namespace Run

variable {r r' : Run} {log log' : Chronicle} {c c' : Course} {e : Event} {hub : Hub} {i : Nat}
  {stage : Stage} {s : Seat}

/-- What the players of a game have counted, going by a chronicle. -/
def countOf (log : Chronicle) (game : Nat) (color : Color) : Nat :=
  log.evaluatedFor (clientOf game color)

/-- The hub of a run is a course with a chronicle, and every worker has two clients of its own, the
seat that suits its stage, and players that have counted what was evaluated for their clients. -/
structure Booked (log : Chronicle) (c : Course) (r : Run) : Prop where
  chronicle : log.Of c
  hub : r.arena.hub = c.hub
  clients : c.hub.clients.size = 2 * r.workers.size
  client : ∀ i < r.workers.size, (r.worker i).client = clientOf i
  stage : ∀ i < r.workers.size,
    ∃ s, c.Seats (clientOf i) s ∧ (r.worker i).stage.Suits (clientOf i) (countOf log i) s

theorem clientOf_lt {n : Nat} (hi : i < n) (color : Color) : clientOf i color < 2 * n := by
  cases color <;> simp only [clientOf] <;> omega

namespace Booked

/-- What is neither hub nor worker does not matter. -/
theorem congr (h : r.Booked log c) (hhub : r'.arena.hub = r.arena.hub)
    (hworkers : r'.workers = r.workers) : r'.Booked log c := by
  obtain ⟨arena, table, workers, notices⟩ := r
  obtain ⟨arena', table', workers', notices'⟩ := r'
  obtain rfl : workers' = workers := hworkers
  exact ⟨h.chronicle, hhub.trans h.hub, h.clients, h.client, h.stage⟩

theorem known (h : r.Booked log c) (hi : i < r.workers.size) (color : Color) :
    clientOf i color < c.hub.clients.size := by
  rw [h.clients]
  exact clientOf_lt hi color

/-- One worker goes on to a stage that suits its seat, and the others stay where they are. -/
theorem moveTo (h : r.Booked log c) (hof : log'.Of c') (hhub : r'.arena.hub = c'.hub)
    (hworkers : r'.workers = r.workers) (hsize : c'.hub.clients.size = c.hub.clients.size)
    (seat : c'.Seats (clientOf i) s) (suits : stage.Suits (clientOf i) (countOf log' i) s)
    (others : ∀ j < r.workers.size, j ≠ i → ∃ s, c'.Seats (clientOf j) s ∧
      (r.worker j).stage.Suits (clientOf j) (countOf log' j) s) :
    (r'.setStage i stage).Booked log' c' := by
  have hworker : ∀ j, r'.worker j = r.worker j := fun j => by rw [worker, hworkers]; rfl
  refine ⟨hof, hhub, ?_, fun j hj => ?_, fun j hj => ?_⟩
  · rw [hsize, h.clients, size_setStage, hworkers]
  all_goals
    rw [size_setStage, hworkers] at hj
    by_cases hji : j = i
  · subst hji
    rw [worker_setStage_self r' stage (hworkers ▸ hj), hworker]
    exact h.client j hj
  · rw [worker_setStage_ne r' stage hji, hworker]
    exact h.client j hj
  · subst hji
    rw [worker_setStage_self r' stage (hworkers ▸ hj)]
    exact ⟨s, seat, suits⟩
  · rw [worker_setStage_ne r' stage hji, hworker]
    exact others j hj hji

theorem setStage (h : r.Booked log c) (seat : c.Seats (clientOf i) s)
    (suits : stage.Suits (clientOf i) (countOf log i) s) : (r.setStage i stage).Booked log c :=
  h.moveTo h.chronicle h.hub rfl rfl seat suits fun j hj _ => h.stage j hj

theorem follow_of (h : r.Booked log c) (allowed : c.Allows (.event e))
    (ok : r.arena.hub.act e = .ok hub) : (log.follow c e).Of (c.follow e hub) := by
  refine h.chronicle.act (a := .event e) allowed ?_
  rw [Course.after, ← h.hub, ok]
  rfl

/-- Nobody minds what happens without a call of its thread. -/
theorem stray (h : r.Booked log c) (he : e.isStray = true) (ok : r.arena.hub.act e = .ok hub) :
    (r.setHub hub).Booked (log.follow c e) (c.follow e hub) := by
  have hkept := h.chronicle.reachable.kept
  have hof : (log.follow c e).Of (c.follow e hub) := by
    refine h.follow_of ?_ ok
    cases e with
    | proceed | flush | runFlush | stir => trivial
    | startGame | endGame | request | collect => cases he
  have hcount : ∀ j, countOf (log.follow c e) j = countOf log j := fun j => funext fun color =>
    Chronicle.evaluatedFor_follow (by rintro rfl; cases he)
  rw [h.hub] at ok
  refine ⟨hof, rfl, (Hub.act_frame ok).size.trans h.clients, h.client, fun j hj => ?_⟩
  obtain ⟨s, hseat, hsuits⟩ := h.stage j hj
  obtain ⟨s', hdrift, hseat'⟩ := hseat.stray hkept he ok
  rw [hcount]
  exact ⟨s', hseat', hsuits.drift hdrift⟩

/-- A call of one worker leaves the others where they are. -/
theorem call (h : r.Booked log c) (allowed : c.Allows (.event e))
    (ok : r.arena.hub.act e = .ok hub)
    (mine : ∀ x, e.Concerns c.hub x → ∃ color, x = clientOf i color)
    (seat : (c.follow e hub).Seats (clientOf i) s)
    (suits : stage.Suits (clientOf i) (countOf (log.follow c e) i) s) :
    ((r.setHub hub).setStage i stage).Booked (log.follow c e) (c.follow e hub) := by
  have hof := h.follow_of allowed ok
  rw [h.hub] at ok
  refine h.moveTo hof rfl rfl (Hub.act_frame ok).size seat suits fun j hj hji => ?_
  have apart : ∀ color, ¬ e.Concerns c.hub (clientOf j color) := fun color hconcern => by
    -- No client belongs to two games.
    obtain ⟨color', hsame⟩ := mine _ hconcern
    exact hji (clientOf_inj hsame).1
  have hcount : countOf (log.follow c e) j = countOf log j := funext fun color =>
    Chronicle.evaluatedFor_follow fun he => apart color (by rw [he]; rfl)
  obtain ⟨s, hseat, hsuits⟩ := h.stage j hj
  rw [hcount]
  exact ⟨s, hseat.frame ok apart, hsuits⟩

/-! ## What a worker does -/

section Proceed

variable (h : r.Booked log c) (hi : i < r.workers.size)

include h hi

theorem black_eq : (r.worker i).black = clientOf i .black := congrFun (h.client i hi) .black

theorem white_eq : (r.worker i).white = clientOf i .white := congrFun (h.client i hi) .white

theorem begin {m : Match} (hstage : (r.worker i).stage = .fresh m)
    (ok : r.arena.hub.startGame (r.worker i).black (r.worker i).white = .ok hub) :
    ∃ log' c', ((r.setHub hub).setStage i (.opening m)).Booked log' c' := by
  obtain ⟨s, seat, hsuits⟩ := h.stage i hi
  rw [hstage] at hsuits
  rw [h.black_eq hi, h.white_eq hi] at ok
  cases hsuits with
  | fresh tally =>
    have hne : clientOf i .black ≠ clientOf i .white := fun he => by
      cases (clientOf_inj he).2
    have allowed : c.Allows (.event (.startGame (clientOf i .black) (clientOf i .white))) :=
      ⟨hne, h.known hi _, h.known hi _, seat .black, seat .white⟩
    have mine : ∀ x, (Event.startGame (clientOf i .black) (clientOf i .white)).Concerns c.hub x →
        ∃ color, x = clientOf i color := by
      rintro x (rfl | rfl) <;> exact ⟨_, rfl⟩
    have hlog : ∀ x y, log.follow c (.startGame x y) = log :=
      fun x y => Chronicle.follow_of_nothing rfl nofun
    rcases Course.Seats.startGame hne (h.known hi) (h.hub ▸ ok) with hseat | hseat
    · exact ⟨_, _, h.call allowed ok mine hseat (.opening (by rw [hlog]; exact tally))⟩
    · exact ⟨_, _, h.call allowed ok mine hseat (.opened (by rw [hlog]; exact tally))⟩

/-- A worker whose game is registered stands before the first turn. -/
theorem opened {m : Match} (hstage : (r.worker i).stage = .opening m)
    (hidle : isIdle r.arena.hub (r.worker i).black = true) :
    (r.setStage i (.playing m)).Booked log c := by
  obtain ⟨s, seat, hsuits⟩ := h.stage i hi
  rw [hstage] at hsuits
  rw [h.black_eq hi, Tracked.isIdle_iff, h.hub] at hidle
  cases hsuits with
  | opening tally => cases hidle.symm.trans seat.2
  | opened tally => exact h.setStage seat (.playing tally)

theorem ask {x : Nat} {positions : List Position} {next : List Evaluation → Inquiry Match}
    (hstage : (r.worker i).stage = .thinking x (.ask positions next))
    (ok : r.arena.hub.request x positions = .ok hub) :
    ∃ log' c', ((r.setHub hub).setStage i (.waiting x next)).Booked log' c' := by
  obtain ⟨s, seat, hsuits⟩ := h.stage i hi
  rw [hstage] at hsuits
  generalize hwork : Inquiry.ask positions next = work at hsuits
  cases hsuits with
  | @thinking color work tally =>
    subst hwork
    have hlog : log.follow c (.request (clientOf i color) positions) = log :=
      Chronicle.follow_of_nothing rfl nofun
    refine ⟨_, _, h.call (e := .request (clientOf i color) positions)
      ⟨_, Course.isGame_of_color seat.1 color, seat.2 _, seat.2 _⟩ ok ?_
      (seat.request h.chronicle.reachable.kept (h.hub ▸ ok)) (.waiting ?_)⟩
    · rintro x rfl
      exact ⟨color, rfl⟩
    · rw [hlog]
      exact tally.answer

/-- A player that gets an answer has counted its positions already. -/
theorem answer {x : Nat} {answer : List Evaluation} {next : List Evaluation → Inquiry Match}
    (hstage : (r.worker i).stage = .waiting x next)
    (hcollect : r.arena.hub.collect? x = some (answer, hub)) :
    ∃ log' c', ((r.setHub hub).setStage i (.thinking x (next answer))).Booked log' c' := by
  obtain ⟨s, seat, hsuits⟩ := h.stage i hi
  rw [hstage] at hsuits
  cases hsuits with
  | @waiting color positions next tally =>
    have hcollect' := h.hub ▸ hcollect
    have ok : r.arena.hub.act (.collect (clientOf i color)) = .ok hub := by
      simp only [Hub.act, hcollect]
    -- The tally of the work to come has the positions of this call in it.
    have hcount : countOf (log.follow c (.collect (clientOf i color))) i =
        Match.plus (countOf log i) color positions.length := by
      funext color'
      unfold countOf Match.plus
      by_cases hcolor : color' = color
      · subst hcolor
        rw [if_pos rfl, Chronicle.evaluatedFor_collect hcollect', seat.2.2]
      · rw [if_neg hcolor, Nat.add_zero]
        refine Chronicle.evaluatedFor_follow fun he => hcolor ?_
        exact (clientOf_inj (Event.collect.inj he)).2.symm
    refine ⟨_, _, h.call (e := .collect (clientOf i color)) trivial ok ?_
      (seat.collect h.chronicle.reachable.kept hcollect') (.thinking ?_)⟩
    · rintro x rfl
      exact ⟨color, rfl⟩
    · rw [hcount]
      exact tally answer

theorem close {m : Match} (hstage : (r.worker i).stage = .playing m) (log₁ : Array String)
    (ok : r.arena.hub.endGame (r.worker i).black (r.worker i).white = .ok hub) :
    ∃ log' c', ((r.setHub hub).setStage i (.closing { m with log := log₁ })).Booked log' c' := by
  obtain ⟨s, seat, hsuits⟩ := h.stage i hi
  rw [hstage] at hsuits
  rw [h.black_eq hi, h.white_eq hi] at ok
  cases hsuits with
  | playing tally =>
    have allowed : c.Allows (.event (.endGame (clientOf i .black) (clientOf i .white))) :=
      ⟨.inl seat.1, seat.2 .black, seat.2 .white⟩
    have mine : ∀ x, (Event.endGame (clientOf i .black) (clientOf i .white)).Concerns c.hub x →
        ∃ color, x = clientOf i color := by
      rintro x (rfl | rfl) <;> exact ⟨_, rfl⟩
    have hlog : ∀ x y, log.follow c (.endGame x y) = log :=
      fun x y => Chronicle.follow_of_nothing rfl nofun
    have htally : ({ m with log := log₁ } : Match).Tallies (countOf log i) := fun color => by
      rw [Match.player_withLog, tally]
    rcases seat.endGame h.chronicle.reachable.kept (h.hub ▸ ok) with hseat | hseat
    · exact ⟨_, _, h.call allowed ok mine hseat (.closing (by rw [hlog]; exact htally))⟩
    · exact ⟨_, _, h.call allowed ok mine hseat (.closed (by rw [hlog]; exact htally))⟩

/-- The arena takes in a game that has ended. -/
theorem closed {m : Match} (hstage : (r.worker i).stage = .closing m)
    (hidle : isIdle r.arena.hub (r.worker i).black = true) :
    (r.setStage i (.finished m)).Booked log c := by
  obtain ⟨s, seat, hsuits⟩ := h.stage i hi
  rw [hstage] at hsuits
  rw [h.black_eq hi, Tracked.isIdle_iff, h.hub] at hidle
  cases hsuits with
  | closing tally => cases hidle.symm.trans seat.2
  | closed tally => exact h.setStage seat (.finished tally)

/-- Every step of a worker leaves all players with what was evaluated for their clients. -/
theorem proceed (hp : r.Proceeds i r') : ∃ log' c', r'.Booked log' c' := by
  cases hp with
  | begin stage ok => exact h.begin hi stage ok
  | opened stage idle => exact ⟨log, c, h.opened hi stage idle⟩
  | @turn m stage goes log₁ verbose ns =>
    obtain ⟨s, seat, hsuits⟩ := h.stage i hi
    rw [stage] at hsuits
    rw [h.client i hi]
    cases hsuits with
    | playing tally =>
      have htold : (r.notify ns).Booked log c := h.congr rfl rfl
      exact ⟨log, c, htold.setStage seat (.thinking (tally.turn log₁ verbose))⟩
  | @turned m x stage =>
    obtain ⟨s, seat, hsuits⟩ := h.stage i hi
    rw [stage] at hsuits
    generalize hwork : Inquiry.done m = work at hsuits
    cases hsuits with
    | thinking tally =>
      subst hwork
      exact ⟨log, c, h.setStage seat (.playing tally.done)⟩
  | ask stage ok => exact h.ask hi stage ok
  | answer stage ok => exact h.answer hi stage ok
  | close stage ended ok log₁ ns =>
    have htold : (r.notify ns).Booked log c := h.congr rfl rfl
    exact htold.close hi stage log₁ ok
  | closed stage idle ok ns =>
    exact ⟨log, c, (h.closed hi stage idle).congr (Arena.hub_takeIn ok) rfl⟩
  | stay => exact ⟨log, c, h⟩

end Proceed

theorem perform (h : r.Booked log c) {t : Task} (ok : r.perform t = .ok r') :
    ∃ log' c', r'.Booked log' c' := by
  rcases perform_eq_ok ok with rfl | ⟨i, hi, hp⟩ | ⟨e, hub, he, hact, rfl⟩
  · exact ⟨log, c, h⟩
  · exact h.proceed hi hp
  · exact ⟨_, _, h.stray he hact⟩

end Booked

/-! ## The beginning -/

/-- The workers of the first games are made, and no player has counted anything. -/
structure Prepared (c : Course) (a : Arena) (workers : Array Worker) : Prop where
  chronicle : Chronicle.Of ⟨[], []⟩ c
  hub : a.hub = c.hub
  games : c.games = []
  clients : c.hub.clients.size = 2 * workers.size
  worker : ∀ i < workers.size, ∃ m, workers.getD i default =
    ⟨i, clientOf i .black, clientOf i .white, .fresh m⟩ ∧ m.Tallies fun _ => 0

variable {loader : Loader} {config : Config} {a a' : Arena} {workers workers' : Array Worker}
  {seed : UInt64} {count game : Nat} {w : Worker}

/-- A new worker has two new clients, and players that have counted nothing. -/
theorem newWorker_eq_ok (hof : log.Of c) (hhub : a.hub = c.hub)
    (ok : newWorker a seed game = .ok (a', w)) :
    ∃ hub m, log.Of { c with hub } ∧ a'.hub = hub ∧ hub.clients.size = c.hub.clients.size + 2 ∧
      w = ⟨game, c.hub.clients.size, c.hub.clients.size + 1, .fresh m⟩ ∧ m.Tallies fun _ => 0 := by
  unfold newWorker at ok
  simp only at ok
  obtain ⟨⟨x, hub₁⟩, hblack, ok⟩ := bind_eq_ok ok
  obtain ⟨⟨y, hub₂⟩, hwhite, ok⟩ := bind_eq_ok ok
  obtain ⟨p, hp, ok⟩ := bind_eq_ok ok
  obtain ⟨q, hq, ok⟩ := bind_eq_ok ok
  cases ok
  rw [hhub] at hblack
  obtain ⟨rfl, hallowed₁, hafter₁, hsize₁⟩ := Course.after_addClient hblack
  obtain ⟨rfl, hallowed₂, hafter₂, hsize₂⟩ :=
    Course.after_addClient (c := { c with hub := hub₁ }) hwhite
  refine ⟨hub₂, ⟨.fromPosition (a.contender game .black).name (a.contender game .white).name
    a.config.gameOptions (.initial a.config.gameOptions.komi), p, q, #[]⟩,
    (hof.act hallowed₁ hafter₁).act hallowed₂ hafter₂, rfl, ?_, ?_, ?_⟩
  · rw [hsize₂, hsize₁]
  · rw [← hsize₁]
  · intro color
    cases color with
    | black => exact Player.inferences_new hp
    | white => exact Player.inferences_new hq

namespace Prepared

theorem push (h : Prepared c a workers) (ok : newWorker a seed workers.size = .ok (a', w)) :
    ∃ c', Prepared c' a' (workers.push w) := by
  obtain ⟨hub, m, hof, hhub, hsize, rfl, htally⟩ := newWorker_eq_ok h.chronicle h.hub ok
  rw [h.clients] at hsize
  refine ⟨_, hof, hhub, h.games, ?_, fun i hi => ?_⟩
  · rw [Array.size_push]
    show hub.clients.size = _
    omega
  · rw [Array.size_push] at hi
    rcases Nat.lt_succ_iff_lt_or_eq.mp hi with hlt | rfl
    · obtain ⟨m, hw, hm⟩ := h.worker i hlt
      refine ⟨m, ?_, hm⟩
      rw [← hw]
      simp [Array.getD_eq_getD_getElem?, Array.getElem?_push, Nat.ne_of_lt hlt]
    · refine ⟨m, ?_, htally⟩
      simp [Array.getD_eq_getD_getElem?, h.clients, clientOf]

theorem newWorkers (h : Prepared c a workers)
    (ok : Run.newWorkers seed count workers.size a workers = .ok (a', workers')) :
    ∃ c', Prepared c' a' workers' := by
  induction count generalizing c a workers with
  | zero =>
    cases ok
    exact ⟨c, h⟩
  | succ count ih =>
    rw [Run.newWorkers] at ok
    obtain ⟨⟨b, w⟩, hw, ok⟩ := bind_eq_ok ok
    obtain ⟨c', h'⟩ := h.push hw
    exact ih h' (by rw [Array.size_push]; exact ok)

end Prepared

/-- At the beginning of a run no player has counted anything. -/
theorem booked_of_start {stamp : Stamp} {ns : Array Notice} {table : Option TableSpec}
    {clockSeed : UInt64} (made : Arena.new config loader stamp = (ns, .ok a))
    (ok : start a table clockSeed = .ok r) : ∃ c, r.Booked ⟨[], []⟩ c := by
  obtain ⟨c, hof, hhub, hgames, hsize⟩ := Arena.course_of_new made
  unfold start at ok
  simp only at ok
  obtain ⟨⟨a', workers⟩, hworkers, ok⟩ := bind_eq_ok ok
  cases ok
  have hnone : Prepared c a #[] := ⟨hof, hhub, hgames, hsize, nofun⟩
  obtain ⟨c', h⟩ := hnone.newWorkers hworkers
  have hworker : ∀ i < workers.size, ∃ m, workers.getD i default =
      ⟨i, clientOf i .black, clientOf i .white, .fresh m⟩ ∧ m.Tallies fun _ => 0 := h.worker
  refine ⟨c', h.chronicle, h.hub, h.clients, fun i hi => ?_, fun i hi => ?_⟩
  · obtain ⟨m, hw, -⟩ := hworker i hi
    rw [worker, hw]
    funext color
    cases color <;> rfl
  · obtain ⟨m, hw, hm⟩ := hworker i hi
    rw [worker, hw]
    refine ⟨.outside, fun color g hg => ?_, .fresh hm⟩
    rw [h.games] at hg
    cases hg

/-- In every order of tasks all players have counted what was evaluated for their clients. -/
theorem Of.booked (h : Of loader config r) : ∃ log c, r.Booked log c := by
  obtain ⟨ns, stamp, a, table, clockSeed, s, tasks, made, -, begun, ok⟩ := h
  obtain ⟨c, hbegun⟩ := booked_of_start made begun
  refine performAll_induction (P := fun r => ∃ log c, r.Booked log c) ?_ ⟨_, c, hbegun⟩ ok
  rintro r t r' ⟨log, c, hbooked⟩ ok
  exact hbooked.perform ok

/-! ## Sums over devices, clients and workers -/

/-- What is summed up key by key is summed up. -/
theorem sum_range_filter {α : Type} {l : List α} {key : α → Nat} {n : Nat} (size : α → Nat)
    (h : ∀ a ∈ l, key a < n) :
    ∑ k ∈ Finset.range n, ((l.filter (key · == k)).map size).sum = (l.map size).sum := by
  induction l with
  | nil => exact Finset.sum_const_zero
  | cons a l ih =>
    have hhead : ∀ k, (((a :: l).filter (key · == k)).map size).sum =
        (if key a = k then size a else 0) + ((l.filter (key · == k)).map size).sum := fun k => by
      by_cases hk : key a = k
      · rw [List.filter_cons_of_pos (by simpa using hk), List.map_cons, List.sum_cons, if_pos hk]
      · rw [List.filter_cons_of_neg (by simpa using hk), if_neg hk, Nat.zero_add]
    rw [Finset.sum_congr rfl fun k _ => hhead k, Finset.sum_add_distrib, Finset.sum_ite_eq,
      if_pos (Finset.mem_range.mpr (h a List.mem_cons_self)),
      ih fun b hb => h b (List.mem_cons_of_mem a hb), List.map_cons, List.sum_cons]

theorem sum_range_getD {α : Type} [Inhabited α] (xs : Array α) (size : α → Nat) :
    ∑ i ∈ Finset.range xs.size, size (xs.getD i default) = (xs.toList.map size).sum := by
  rw [Finset.sum_range, ← Fin.sum_univ_fun_getElem]
  refine Finset.sum_congr rfl fun i _ => ?_
  simp [Array.getD_eq_getD_getElem?]

/-- Each game has two clients. -/
theorem sum_range_clientOf (size : Nat → Nat) (n : Nat) : ∑ x ∈ Finset.range (2 * n), size x =
    ∑ i ∈ Finset.range n, (size (clientOf i .black) + size (clientOf i .white)) := by
  induction n with
  | zero => rfl
  | succ n ih =>
    rw [Nat.mul_succ, Finset.sum_range_succ, Finset.sum_range_succ, Finset.sum_range_succ, ih,
      Nat.add_assoc]
    rfl

theorem stats_positions (a : Arena) : a.stats.positions =
    ∑ i ∈ Finset.range a.hub.devices.size, (a.hub.device i).stats.positions := by
  have hfold : ∀ (devices : List Device) (total : BatchStats),
      (devices.foldl (fun total d => total.merge d.stats) total).positions =
        total.positions + (devices.map (·.stats.positions)).sum := by
    intro devices
    induction devices with
    | nil => exact fun _ => rfl
    | cons d devices ih =>
      intro total
      rw [List.foldl_cons, ih, List.map_cons, List.sum_cons, ← Nat.add_assoc]
      rfl
  rw [Arena.stats, ← Array.foldl_toList, hfold]
  exact (Nat.zero_add _).trans (sum_range_getD a.hub.devices (·.stats.positions)).symm

/-! ## The end of a run -/

theorem exists_clientOf (x : Nat) : ∃ i color, x = clientOf i color := by
  rcases Nat.even_or_odd' x with ⟨i, rfl | rfl⟩
  · exact ⟨i, .black, rfl⟩
  · exact ⟨i, .white, rfl⟩

/-- When all games were taken in, nobody is in a game any more. -/
theorem Booked.games_eq_nil (h : r.Booked log c) (done : r.isFinished = true) : c.games = [] := by
  refine List.eq_nil_iff_forall_not_mem.mpr fun g hg => ?_
  obtain ⟨i, color, hx⟩ := exists_clientOf g.1
  have hsize := h.chronicle.reachable.kept.census.known g.1 (mem_members.mpr ⟨g, hg, .inl rfl⟩)
  rw [h.clients, hx] at hsize
  have hi : i < r.workers.size := by
    cases color <;> simp only [clientOf] at hsize <;> omega
  obtain ⟨m, hm⟩ := exists_finished_of_isFinished done hi
  obtain ⟨s, hseat, hsuits⟩ := h.stage i hi
  rw [hm] at hsuits
  cases hsuits with
  | finished tally => exact (hseat color g hg).1 hx

/-- The players of a game that was taken in have counted what was evaluated for its clients. -/
theorem Booked.inferences (h : r.Booked log c) (done : r.isFinished = true)
    (hi : i < r.workers.size) : (r.worker i).inferences =
      log.evaluatedFor (clientOf i .black) + log.evaluatedFor (clientOf i .white) := by
  obtain ⟨m, hm⟩ := exists_finished_of_isFinished done hi
  obtain ⟨s, -, hsuits⟩ := h.stage i hi
  unfold Worker.inferences
  rw [hm] at hsuits ⊢
  cases hsuits with
  | finished tally => exact congrArg₂ (· + ·) (tally .black) (tally .white)

/-- When all games were taken in, the devices have counted as many positions as all players. -/
theorem Booked.stats_eq (h : r.Booked log c) (done : r.isFinished = true) :
    r.arena.stats.positions = (r.workers.toList.map Worker.inferences).sum := by
  have hl := h.chronicle.reachable.kept
  have hbalances := h.chronicle.balances.2
  have hdevices : ∀ d ∈ log.completions, d.device < c.hub.devices.size := fun d hd => by
    obtain ⟨hclient, hdevice⟩ := hbalances.home d hd
    rw [hdevice]
    exact hl.census.home _ hclient
  have hclients : ∀ d ∈ log.completions, d.client < 2 * r.workers.size := fun d hd =>
    h.clients ▸ (hbalances.home d hd).1
  -- Nobody is in a game any more, so all devices are quiet.
  have hcounted : ∀ i, (c.hub.device i).stats.positions =
      ((log.completedOn i).map (·.positions.length)).sum := fun i =>
    ((h.chronicle.agrees i).quiet (hl.isQuiet_of_games_eq_nil (h.games_eq_nil done) i)).2
  calc r.arena.stats.positions
      = ∑ i ∈ Finset.range c.hub.devices.size, (c.hub.device i).stats.positions := by
        rw [stats_positions, h.hub]
    _ = ∑ i ∈ Finset.range c.hub.devices.size,
          ((log.completedOn i).map (·.positions.length)).sum :=
        Finset.sum_congr rfl fun i _ => hcounted i
    _ = (log.completions.map (·.positions.length)).sum := sum_range_filter _ hdevices
    _ = ∑ x ∈ Finset.range (2 * r.workers.size), log.evaluatedFor x :=
        (sum_range_filter _ hclients).symm
    _ = ∑ i ∈ Finset.range r.workers.size, (r.worker i).inferences := by
        rw [sum_range_clientOf]
        exact Finset.sum_congr rfl fun i hi => (h.inferences done (Finset.mem_range.mp hi)).symm
    _ = (r.workers.toList.map Worker.inferences).sum := sum_range_getD _ _

/-- Every course has a chronicle, the counts of every device agree with the calls of its clients and
of its models in it, and every call of a model is measured. Every run of a new arena is such a course,
and when all games were taken in its devices have counted as many positions as all players together.
-/
theorem inferences_balance :
    (∀ c : Course, c.Reachable → ∃ log : Chronicle, log.Of c) ∧
    (∀ (log : Chronicle) (c : Course), log.Of c →
      List.Forall₂ c.hub.Measures c.hub.measuredCalls log.calls ∧ ∀ i, log.Agrees c i) ∧
    ∀ (loader : Loader) (config : Config) (r : Run), Of loader config r →
      (∃ log c, Chronicle.Of log c ∧ r.arena.hub = c.hub) ∧
        (r.isFinished = true →
          r.arena.stats.positions = (r.workers.toList.map Worker.inferences).sum) := by
  refine ⟨fun c hc => Chronicle.exists_of_reachable hc,
    fun log c h => ⟨h.balances.2.measured, h.agrees⟩, fun loader config r h => ?_⟩
  obtain ⟨log, c, hbooked⟩ := h.booked
  exact ⟨⟨log, c, hbooked.chronicle, hbooked.hub⟩, hbooked.stats_eq⟩

/-- One client of two asks for one position, and two games of players that resign after one each. -/
theorem inferences_balance_of_faint :
    (∃ (log : Chronicle) (c : Course), log.Of c ∧ c.IsQuiet 0 ∧
      log.completions = [⟨0, 0, [.initial .zero]⟩] ∧ log.calls.length = 1 ∧ log.Agrees c 0) ∧
    ∃ r : Run, Of .gloomy .faint r ∧ r.isFinished = true ∧ r.arena.stats.positions = 2 ∧
      (r.workers.toList.map Worker.inferences).sum = 2 := by
  constructor
  · have h₀ : Chronicle.Of ⟨[], []⟩ (.start [.empty "cpu" 1]) :=
      .start fun d hd => ⟨"cpu", 1, by rw [List.mem_singleton.mp hd]; rfl⟩
    have h₁ := h₀.act (a := .load 0 (fun _ _ => .ok .uniform) "uniform") trivial rfl
    have h₂ := (h₁.act (a := .addClient 0 0) rfl rfl).act (a := .addClient 0 0) rfl rfl
    have h₃ := h₂.act (a := .event (.startGame 0 1))
      ⟨by decide, by decide, by decide, by rintro g ⟨⟩, by rintro g ⟨⟩⟩ rfl
    have h₄ := h₃.act (a := .event (.request 0 [.initial .zero]))
      ⟨1, .inl List.mem_cons_self, rfl, rfl⟩ rfl
    have h₅ := ((h₄.act (a := .event (.proceed 0)) trivial rfl).act
      (a := .event (.proceed 0)) trivial rfl).act (a := .event (.collect 0)) trivial rfl
    have h₆ := h₅.act (a := .event (.endGame 0 1)) ⟨.inl List.mem_cons_self, rfl, rfl⟩ rfl
    have hquiet := h₆.reachable.kept.isQuiet_of_games_eq_nil rfl 0
    exact ⟨_, _, h₆, hquiet, rfl, rfl, (inferences_balance.2.1 _ _ h₆).2 0⟩
  · have hturns : (attempt .gloomy .faint [.worker 1, .worker 0, .worker 1, .worker 1, .worker 1,
        .hub (.proceed 2), .worker 0, .worker 0, .worker 0, .hub (.proceed 0), .hub (.proceed 0),
        .hub (.proceed 2), .worker 0, .worker 1, .worker 0, .worker 0, .worker 0, .worker 1,
        .worker 1, .worker 1]).any (fun r => r.isFinished && r.arena.stats.positions == 2) =
          true := by decide +kernel
    obtain ⟨r, hr, hend⟩ := (Option.any_eq_true _ _).mp hturns
    rw [Bool.and_eq_true, beq_iff_eq] at hend
    obtain ⟨done, hpositions⟩ := hend
    have h := Of.of_attempt hr
    exact ⟨r, h, done, hpositions,
      ((inferences_balance.2.2 _ _ r h).2 done).symm.trans hpositions⟩

end Run

end Goban
