import Goban.Proofs.Arena.Tasks
import Goban.Proofs.Batch.Delivery
import Goban.Proofs.Match.Alone

/-!
# Workers on track

In any order of tasks the hub of a run is a course, and every worker has the seat that suits its
stage and continues the match that it has begun as if its models were at hand (`Stage.OnTrack`): what
a client hands out is what its model says of the positions it was asked for, whatever batch they were
in. Every task keeps this (`Run.Tracked.perform`).
-/

namespace Goban

/-- The answers of models that look at one position at a time. -/
def replies (voice : Color → Position → Evaluation) (color : Color) (positions : List Position) :
    List Evaluation :=
  positions.map (voice color)

/-- Whether the model of a client looks at one position at a time, and says so of it. -/
def Hub.Speaks (h : Hub) (x : Nat) (voice : Position → Evaluation) : Prop :=
  ∃ loaded, (h.device (h.client x).device).models[(h.client x).key]? = some loaded ∧
    ∀ ps, loaded.model.evaluate ps = ps.map voice

theorem Hub.Speaks.extend {h h' : Hub} (he : h.Extends h') {x : Nat}
    {voice : Position → Evaluation} (hs : h.Speaks x voice) : h'.Speaks x voice := by
  obtain ⟨loaded, hloaded, hvoice⟩ := hs
  refine ⟨loaded, ?_, hvoice⟩
  rw [(he.client x).1, (he.client x).2]
  exact he.getElem?_models hloaded

namespace Stage

variable {c c' : Course} {of : Color → Nat} {voice : Color → Position → Evaluation} {start m : Match}
  {stage : Stage} {e : Event} {hub : Hub}

/-- A worker has the seat that suits its stage, and continues the match that it has begun. -/
inductive OnTrack (c : Course) (of : Color → Nat) (voice : Color → Position → Evaluation)
    (start : Match) : Stage → Prop where
  | fresh {m : Match} (seat : c.Seats of .outside)
      (track : start.ContinuedBy (replies voice) (m.ending? (replies voice))) :
      OnTrack c of voice start (.fresh m)
  | opening {m : Match} (seat : c.Seats of .entering ∨ c.Seats of .resting)
      (track : start.ContinuedBy (replies voice) (m.ending? (replies voice))) :
      OnTrack c of voice start (.opening m)
  | playing {m : Match} (seat : c.Seats of .resting)
      (track : start.ContinuedBy (replies voice) (m.ending? (replies voice))) :
      OnTrack c of voice start (.playing m)
  | thinking {color : Color} {work : Inquiry Match} (seat : c.Seats of .resting)
      (track : start.ContinuedBy (replies voice) (Match.endingAfter? (replies voice) color work)) :
      OnTrack c of voice start (.thinking (of color) work)
  | waiting {color : Color} {positions : List Position} {next : List Evaluation → Inquiry Match}
      (seat : c.Seats of (.asking color positions))
      (track : start.ContinuedBy (replies voice)
        (Match.endingAfter? (replies voice) color (next (replies voice color positions)))) :
      OnTrack c of voice start (.waiting (of color) next)
  | closing {m : Match} (seat : c.Seats of .leaving ∨ c.Seats of .outside)
      (track : start.ContinuedBy (replies voice) (m.ending? (replies voice)))
      (ended : m.game.isOver = true) : OnTrack c of voice start (.closing m)
  | finished {m : Match} (seat : c.Seats of .outside)
      (track : start.ContinuedBy (replies voice) (m.ending? (replies voice)))
      (ended : m.game.isOver = true) : OnTrack c of voice start (.finished m)

/-- Only the seat of a worker depends on the course. -/
theorem OnTrack.mono (h : stage.OnTrack c of voice start)
    (seats : ∀ s, c.Seats of s → ∃ s', s.Drifts s' ∧ c'.Seats of s') :
    stage.OnTrack c' of voice start := by
  have stay : ∀ s, (∀ s', s.Drifts s' → s' = s) → c.Seats of s → c'.Seats of s := fun s hs h => by
    obtain ⟨s', hdrift, h'⟩ := seats s h
    exact hs s' hdrift ▸ h'
  -- Of the seats only those at the doors drift, to what their stages allow as well.
  have outside : c.Seats of .outside → c'.Seats of .outside := stay _ fun s' hd => by cases hd; rfl
  have resting : c.Seats of .resting → c'.Seats of .resting := stay _ fun s' hd => by cases hd; rfl
  cases h with
  | fresh seat track => exact .fresh (outside seat) track
  | opening seat track =>
    refine .opening ?_ track
    rcases seat with seat | seat
    · obtain ⟨s', hdrift, h'⟩ := seats _ seat
      cases hdrift with
      | stay => exact .inl h'
      | enter => exact .inr h'
    · exact .inr (resting seat)
  | playing seat track => exact .playing (resting seat) track
  | thinking seat track => exact .thinking (resting seat) track
  | waiting seat track => exact .waiting (stay _ (fun s' hd => by cases hd; rfl) seat) track
  | closing seat track ended =>
    refine .closing ?_ track ended
    rcases seat with seat | seat
    · obtain ⟨s', hdrift, h'⟩ := seats _ seat
      cases hdrift with
      | stay => exact .inl h'
      | leave => exact .inr h'
    · exact .inr (outside seat)
  | finished seat track ended => exact .finished (outside seat) track ended

end Stage

namespace Run

/-- The clients of the players of a game. -/
def clientOf (game : Nat) : Color → Nat
  | .black => 2 * game
  | .white => 2 * game + 1

variable {r r' : Run} {i j : Nat} {color color' : Color}

theorem clientOf_inj (h : clientOf i color = clientOf j color') : i = j ∧ color = color' := by
  cases color <;> cases color' <;> simp only [clientOf] at h <;>
    first | exact ⟨by omega, rfl⟩ | exact absurd h (by omega)

/-! ## What every order keeps -/

/-- The hub of a run is a course, and every worker has two clients of its own whose models look at one
position at a time. -/
structure Manned (voice : Nat → Color → Position → Evaluation) (c : Course) (r : Run) : Prop where
  reachable : c.Reachable
  hub : r.arena.hub = c.hub
  number : ∀ i < r.workers.size, (r.worker i).number = i
  client : ∀ i < r.workers.size, (r.worker i).client = clientOf i
  known : ∀ i < r.workers.size, ∀ color, clientOf i color < c.hub.clients.size
  speaks : ∀ i < r.workers.size, ∀ color, c.hub.Speaks (clientOf i color) (voice i color)

/-- All workers are on track. -/
structure Tracked (voice : Nat → Color → Position → Evaluation) (start : Nat → Match) (c : Course)
    (r : Run) : Prop extends Manned voice c r where
  track : ∀ i < r.workers.size, (r.worker i).stage.OnTrack c (clientOf i) (voice i) (start i)

section Changes

variable {voice : Nat → Color → Position → Evaluation} {start : Nat → Match} {c : Course}
  {e : Event} {hub : Hub} {stage : Stage}

theorem Manned.setStage (h : r.Manned voice c) (i : Nat) (stage : Stage) :
    (r.setStage i stage).Manned voice c := by
  have hworker : ∀ j, j < r.workers.size → ((r.setStage i stage).worker j).number =
      (r.worker j).number ∧ ((r.setStage i stage).worker j).client = (r.worker j).client := by
    intro j hj
    by_cases hji : j = i
    · subst hji
      rw [worker_setStage_self r stage hj]
      exact ⟨rfl, rfl⟩
    · rw [worker_setStage_ne r stage hji]
      exact ⟨rfl, rfl⟩
  refine ⟨h.reachable, h.hub, ?_, ?_, ?_, ?_⟩
  all_goals rw [size_setStage]
  · exact fun j hj => (hworker j hj).1.trans (h.number j hj)
  · exact fun j hj => (hworker j hj).2.trans (h.client j hj)
  · exact h.known
  · exact h.speaks

theorem Manned.event (h : r.Manned voice c) (allowed : c.Allows (.event e))
    (ok : r.arena.hub.act e = .ok hub) : (r.setHub hub).Manned voice (c.follow e hub) := by
  rw [h.hub] at ok
  have hframe := Hub.act_frame ok
  refine ⟨h.reachable.act allowed ?_, rfl, h.number, h.client, fun i hi color => ?_,
    fun i hi color => (h.speaks i hi color).extend hframe.toExtends⟩
  · rw [Course.after, ok]
    rfl
  · show _ < hub.clients.size
    rw [hframe.size]
    exact h.known i hi color

namespace Tracked

/-- What is neither hub nor worker does not matter. -/
theorem congr (h : r.Tracked voice start c) (hhub : r'.arena.hub = r.arena.hub)
    (hworkers : r'.workers = r.workers) : r'.Tracked voice start c := by
  obtain ⟨arena, table, workers, notices⟩ := r
  obtain ⟨arena', table', workers', notices'⟩ := r'
  obtain rfl : workers' = workers := hworkers
  exact ⟨⟨h.reachable, hhub.trans h.hub, h.number, h.client, h.known, h.speaks⟩, h.track⟩

theorem setStage (h : r.Tracked voice start c)
    (track : stage.OnTrack c (clientOf i) (voice i) (start i)) :
    (r.setStage i stage).Tracked voice start c := by
  refine ⟨h.toManned.setStage i stage, fun j hj => ?_⟩
  rw [size_setStage] at hj
  by_cases hji : j = i
  · subst hji
    rw [worker_setStage_self r stage hj]
    exact track
  · rw [worker_setStage_ne r stage hji]
    exact h.track j hj

/-- Nobody minds what happens without a call of its thread. -/
theorem stray (h : r.Tracked voice start c) (he : e.isStray = true)
    (ok : r.arena.hub.act e = .ok hub) : (r.setHub hub).Tracked voice start (c.follow e hub) := by
  have hkept := h.reachable.kept
  refine ⟨h.toManned.event ?_ ok, fun i hi => (h.track i hi).mono fun s hs => ?_⟩
  · cases e with
    | proceed | flush | runFlush | stir => trivial
    | startGame | endGame | request | collect => cases he
  · rw [h.hub] at ok
    exact hs.stray hkept he ok

/-- A call of one worker leaves the others where they are. -/
theorem call (h : r.Tracked voice start c) (allowed : c.Allows (.event e))
    (ok : r.arena.hub.act e = .ok hub)
    (mine : ∀ x, e.Concerns c.hub x → ∃ color, x = clientOf i color)
    (track : stage.OnTrack (c.follow e hub) (clientOf i) (voice i) (start i)) :
    ((r.setHub hub).setStage i stage).Tracked voice start (c.follow e hub) := by
  refine ⟨(h.toManned.event allowed ok).setStage i stage, fun j hj => ?_⟩
  rw [size_setStage] at hj
  by_cases hji : j = i
  · subst hji
    rw [worker_setStage_self _ stage hj]
    exact track
  · rw [worker_setStage_ne _ stage hji]
    refine (h.track j hj).mono fun s hs => ⟨s, .stay s, ?_⟩
    rw [h.hub] at ok
    refine hs.frame ok fun color hconcern => ?_
    obtain ⟨color', hsame⟩ := mine _ hconcern
    exact hji (clientOf_inj hsame).1

/-! ## What a worker does -/

theorem isIdle_iff {h : Hub} {x : Nat} : isIdle h x = true ↔ (h.client x).phase = .idle := by
  unfold isIdle
  split
  · rename_i hp
    simp [hp]
  · rename_i hp
    simpa using hp

section Proceed

variable (h : r.Tracked voice start c) (hi : i < r.workers.size)

include h hi

theorem black_eq : (r.worker i).black = clientOf i .black := congrFun (h.client i hi) .black

theorem white_eq : (r.worker i).white = clientOf i .white := congrFun (h.client i hi) .white

theorem begin {m : Match} (hstage : (r.worker i).stage = .fresh m)
    (ok : r.arena.hub.startGame (r.worker i).black (r.worker i).white = .ok hub) :
    ∃ c', ((r.setHub hub).setStage i (.opening m)).Tracked voice start c' := by
  have htrack := h.track i hi
  rw [hstage] at htrack
  rw [h.black_eq hi, h.white_eq hi] at ok
  cases htrack with
  | fresh seat track =>
    have hne : clientOf i .black ≠ clientOf i .white := fun he => by
      cases (clientOf_inj he).2
    have ok' := h.hub ▸ ok
    refine ⟨_, h.call (e := .startGame (clientOf i .black) (clientOf i .white))
      ⟨hne, h.known i hi _, h.known i hi _, seat .black, seat .white⟩ ok ?_
      (.opening (Course.Seats.startGame hne (h.known i hi) ok') track)⟩
    rintro x (rfl | rfl) <;> exact ⟨_, rfl⟩

/-- A worker whose game is registered stands before the first turn. -/
theorem opened {m : Match} (hstage : (r.worker i).stage = .opening m)
    (hidle : isIdle r.arena.hub (r.worker i).black = true) :
    (r.setStage i (.playing m)).Tracked voice start c := by
  have htrack := h.track i hi
  rw [hstage] at htrack
  rw [h.black_eq hi, isIdle_iff, h.hub] at hidle
  cases htrack with
  | opening seat track =>
    refine h.setStage (.playing (seat.resolve_left fun hentering => ?_) track)
    cases hidle.symm.trans hentering.2

theorem turn {m : Match} (hstage : (r.worker i).stage = .playing m) (hgoes : m.game.isOver = false)
    (log : Array String) (verbose : Bool) :
    (r.setStage i (.thinking ((r.worker i).client m.mover)
      ({ m with log }.turn verbose))).Tracked voice start c := by
  have htrack := h.track i hi
  rw [hstage] at htrack
  rw [h.client i hi]
  cases htrack with
  | playing seat track => exact h.setStage (.thinking seat (track.turn hgoes verbose log))

theorem turned {m : Match} {x : Nat} (hstage : (r.worker i).stage = .thinking x (.done m)) :
    (r.setStage i (.playing m)).Tracked voice start c := by
  have htrack := h.track i hi
  rw [hstage] at htrack
  cases htrack with
  | thinking seat track => exact h.setStage (.playing seat track)

theorem ask {x : Nat} {positions : List Position} {next : List Evaluation → Inquiry Match}
    (hstage : (r.worker i).stage = .thinking x (.ask positions next))
    (ok : r.arena.hub.request x positions = .ok hub) :
    ∃ c', ((r.setHub hub).setStage i (.waiting x next)).Tracked voice start c' := by
  have htrack := h.track i hi
  rw [hstage] at htrack
  generalize hwork : Inquiry.ask positions next = work at htrack
  cases htrack with
  | @thinking color work seat track =>
    subst hwork
    have ok' := h.hub ▸ ok
    refine ⟨_, h.call (e := .request (clientOf i color) positions)
      ⟨_, Course.isGame_of_color seat.1 color, seat.2 _, seat.2 _⟩ ok ?_
      (.waiting (seat.request h.reachable.kept ok') track)⟩
    rintro x rfl
    exact ⟨color, rfl⟩

/-- A player gets the answer of its model, and thinks on. -/
theorem answer {x : Nat} {answer : List Evaluation} {next : List Evaluation → Inquiry Match}
    (hstage : (r.worker i).stage = .waiting x next)
    (hcollect : r.arena.hub.collect? x = some (answer, hub)) :
    ∃ c', ((r.setHub hub).setStage i (.thinking x (next answer))).Tracked voice start c' := by
  have htrack := h.track i hi
  rw [hstage] at htrack
  cases htrack with
  | @waiting color positions next seat track =>
    have hcollect' := h.hub ▸ hcollect
    have ok : r.arena.hub.act (.collect (clientOf i color)) = .ok hub := by
      simp only [Hub.act, hcollect]
    -- What comes back is what the model says of each of the positions.
    have hanswer : answer = replies (voice i) color positions := by
      obtain ⟨loaded, hloaded, hvoice⟩ := h.speaks i hi color
      rw [h.reachable.answer_eq_map (Course.answer?_of_collect? hcollect') hloaded hvoice,
        seat.2.2]
      rfl
    rw [hanswer]
    refine ⟨_, h.call (e := .collect (clientOf i color)) trivial ok ?_
      (.thinking (seat.collect h.reachable.kept hcollect') track)⟩
    rintro x rfl
    exact ⟨color, rfl⟩

theorem close {m : Match} (hstage : (r.worker i).stage = .playing m) (log : Array String)
    (hover : m.game.isOver = true)
    (ok : r.arena.hub.endGame (r.worker i).black (r.worker i).white = .ok hub) :
    ∃ c', ((r.setHub hub).setStage i (.closing { m with log })).Tracked voice start c' := by
  have htrack := h.track i hi
  rw [hstage] at htrack
  rw [h.black_eq hi, h.white_eq hi] at ok
  cases htrack with
  | playing seat track =>
    have ok' := h.hub ▸ ok
    rw [← Match.ending?_withLog _ m log] at track
    refine ⟨_, h.call (e := .endGame (clientOf i .black) (clientOf i .white))
      ⟨.inl seat.1, seat.2 .black, seat.2 .white⟩ ok ?_
      (.closing (seat.endGame h.reachable.kept ok') track hover)⟩
    rintro x (rfl | rfl) <;> exact ⟨_, rfl⟩

/-- The arena takes in a game that has ended. -/
theorem closed {m : Match} (hstage : (r.worker i).stage = .closing m)
    (hidle : isIdle r.arena.hub (r.worker i).black = true) :
    (r.setStage i (.finished m)).Tracked voice start c := by
  have htrack := h.track i hi
  rw [hstage] at htrack
  rw [h.black_eq hi, isIdle_iff, h.hub] at hidle
  cases htrack with
  | closing seat track ended =>
    refine h.setStage (.finished (seat.resolve_left fun hleaving => ?_) track ended)
    cases hidle.symm.trans hleaving.2

/-- Every step of a worker leaves all workers on track. -/
theorem proceed (hp : r.Proceeds i r') : ∃ c', r'.Tracked voice start c' := by
  cases hp with
  | begin stage ok => exact h.begin hi stage ok
  | opened stage idle => exact ⟨c, h.opened hi stage idle⟩
  | turn stage goes log verbose ns =>
    have htold : (r.notify ns).Tracked voice start c := h.congr rfl rfl
    exact ⟨c, htold.turn hi stage goes log verbose⟩
  | turned stage => exact ⟨c, h.turned hi stage⟩
  | ask stage ok => exact h.ask hi stage ok
  | answer stage ok => exact h.answer hi stage ok
  | close stage ended ok log ns =>
    have htold : (r.notify ns).Tracked voice start c := h.congr rfl rfl
    exact htold.close hi stage log ended ok
  | closed stage idle ok ns =>
    exact ⟨c, (h.closed hi stage idle).congr (Arena.hub_takeIn ok) rfl⟩
  | stay => exact ⟨c, h⟩

end Proceed

theorem perform (h : r.Tracked voice start c) {t : Task} (ok : r.perform t = .ok r') :
    ∃ c', r'.Tracked voice start c' := by
  rcases perform_eq_ok ok with rfl | ⟨i, hi, hp⟩ | ⟨e, hub, he, hact, rfl⟩
  · exact ⟨c, h⟩
  · exact h.proceed hi hp
  · exact ⟨_, h.stray he hact⟩

end Tracked

end Changes

end Run

end Goban
