import Goban.Arena.Run
import Goban.Proofs.Arena.Seats

/-!
# Tasks of a run

The threads of a run are its workers and the clients of their players. A task is a step of one of
them (`Run.Task`), and any list of tasks is an order in which they may take their steps
(`Run.performAll`). The order that `Run.advance` chooses is one of them
(`Run.exists_tasks_of_advance`). What a worker may do in a step is said once (`Run.Proceeds`), and so
is what becomes of a game that the arena takes in (`Arena.takeIn_eq_ok`).
-/

namespace Goban

namespace Arena

variable {a a' : Arena} {table : Option TableSpec} {game : Nat} {g : Game}
  {blackSummary whiteSummary : String}

/-- Whether the target plays a color in a game. -/
def targetPlays (game : Nat) (color : Color) : Bool := targetIsBlack game == (color == .black)

/-- The target is black in the games with odd numbers. -/
theorem targetPlays_iff (game : Nat) (color : Color) :
    targetPlays game color = true ↔ (color = .black ↔ game % 2 = 1) := by
  rw [targetPlays, targetIsBlack, beq_iff_eq, Bool.eq_iff_iff, beq_iff_eq, beq_iff_eq]
  exact iff_comm

theorem hub_setContender (a : Arena) (game : Nat) (color : Color) (c : Contender) :
    (a.setContender game color c).hub = a.hub := by
  unfold setContender
  split <;> rfl

/-- A finished game is a win of the contender who played the color of the winner. Records and rows
are all else that becomes of it. -/
theorem takeIn_eq_ok (ok : a.takeIn table game g blackSummary whiteSummary = .ok a') :
    ∃ color wins, g.winner = some color ∧ (a.contender game color).wins.add g = .ok wins ∧
      ∃ number records tables, a' = { a.setContender game color
        { a.contender game color with wins } with gameNumber := number, records, tables } := by
  unfold takeIn at ok
  split at ok
  · cases ok
  rename_i color hwinner
  obtain ⟨wins, hadd, ok⟩ := bind_eq_ok ok
  refine ⟨color, wins, hwinner, hadd, ?_⟩
  generalize a.setContender game color { a.contender game color with wins } = b at ok ⊢
  simp only at ok
  split at ok
  · -- No record is wanted.
    simp only [pure_bind] at ok
    split at ok <;> cases ok <;> exact ⟨_, _, _, rfl⟩
  · obtain ⟨text, -, ok⟩ := bind_eq_ok ok
    simp only [pure_bind] at ok
    split at ok <;> cases ok <;> exact ⟨_, _, _, rfl⟩

theorem hub_takeIn (ok : a.takeIn table game g blackSummary whiteSummary = .ok a') :
    a'.hub = a.hub := by
  obtain ⟨color, wins, -, -, number, records, tables, rfl⟩ := takeIn_eq_ok ok
  exact hub_setContender a game color _

end Arena

namespace Run

/-- A step of one thread of a run, or of somebody whom no thread minds. -/
inductive Task where
  /-- A worker proceeds. -/
  | worker (i : Nat)
  /-- Something happens to the hub, mostly that a client proceeds. -/
  | hub (e : Event)

/-- A task of a run. There are no other workers than those of the run, and only they make the calls of
their threads. -/
def perform (r : Run) : Task → Except Fault Run
  | .worker i => if i < r.workers.size then r.proceed i else .ok r
  | .hub e => if e.isStray then r.setHub <$> r.arena.hub.act e else .ok r

def performAll : List Task → Run → Except Fault Run
  | [], r => .ok r
  | t :: tasks, r => do performAll tasks (← r.perform t)

/-- What every task keeps holds after all of them. -/
theorem performAll_induction {P : Run → Prop}
    (step : ∀ r t r', P r → r.perform t = .ok r' → P r') {r r' : Run} (h : P r) {tasks : List Task}
    (ok : r.performAll tasks = .ok r') : P r' := by
  induction tasks generalizing r with
  | nil =>
    cases ok
    exact h
  | cons t tasks ih =>
    rw [performAll] at ok
    obtain ⟨next, ht, ok⟩ := bind_eq_ok ok
    exact ih (step r t next h ht) ok

/-- The order in which a run advances by itself is one of all orders. -/
theorem exists_tasks_of_advance {steps : Nat} {r r' : Run} (ok : r.advance steps = .ok r') :
    ∃ tasks, r.performAll tasks = .ok r' := by
  induction steps generalizing r with
  | zero => exact ⟨[], ok⟩
  | succ steps ih =>
    have hnext : ∀ t next, r.perform t = .ok next → next.advance steps = .ok r' →
        ∃ tasks, r.performAll tasks = .ok r' := by
      intro t next ht hrest
      obtain ⟨tasks, htasks⟩ := ih hrest
      refine ⟨t :: tasks, ?_⟩
      rw [performAll, ht]
      exact htasks
    rw [advance] at ok
    split at ok
    · exact ⟨[], ok⟩
    · rename_i next hstep
      unfold step? at hstep
      split at hstep
      · rename_i x hx
        refine hnext (.hub (.proceed x)) next ?_ ok
        exact Option.some.inj hstep
      · obtain ⟨i, hi, hproceed⟩ := Option.map_eq_some_iff.mp hstep
        have hlt : i < r.workers.size := by
          unfold nextWorker? at hi
          split at hi
          · cases hi
            exact (Array.findIdx?_eq_some_iff_findIdx_eq.mp ‹_›).1
          · exact (Array.findIdx?_eq_some_iff_findIdx_eq.mp hi).1
        refine hnext (.worker i) next ?_ ok
        rw [perform, if_pos hlt]
        exact hproceed
    · cases ok

/-! ## Changes of a run -/

section Views

variable (r : Run) (i j : Nat) (stage : Stage) (hub : Hub) (ns : Array Notice)

@[simp] theorem workers_setHub : (r.setHub hub).workers = r.workers := rfl

@[simp] theorem workers_notify : (r.notify ns).workers = r.workers := rfl

@[simp] theorem size_setStage : (r.setStage i stage).workers.size = r.workers.size := by
  simp [setStage]

variable {i j}

theorem worker_setStage_ne (h : j ≠ i) : (r.setStage i stage).worker j = r.worker j := by
  simp [setStage, worker, Array.getD_eq_getD_getElem?, Array.getElem?_modify, h.symm]

theorem worker_setStage_self (hi : i < r.workers.size) :
    (r.setStage i stage).worker i = { r.worker i with stage } := by
  simp [setStage, worker, Array.getD_eq_getD_getElem?, hi, Array.getElem_modify_self]

end Views

/-! ## What a worker does -/

variable {r r' : Run} {i : Nat}

/-- What a worker does in a step, by its stage. -/
inductive Proceeds (r : Run) (i : Nat) : Run → Prop where
  | begin {m : Match} {hub : Hub} (stage : (r.worker i).stage = .fresh m)
      (ok : r.arena.hub.startGame (r.worker i).black (r.worker i).white = .ok hub) :
      Proceeds r i ((r.setHub hub).setStage i (.opening m))
  | opened {m : Match} (stage : (r.worker i).stage = .opening m)
      (idle : isIdle r.arena.hub (r.worker i).black = true) :
      Proceeds r i (r.setStage i (.playing m))
  | turn {m : Match} (stage : (r.worker i).stage = .playing m) (goes : m.game.isOver = false)
      (log : Array String) (verbose : Bool) (ns : Array Notice) :
      Proceeds r i ((r.notify ns).setStage i
        (.thinking ((r.worker i).client m.mover) ({ m with log }.turn verbose)))
  | turned {m : Match} {x : Nat} (stage : (r.worker i).stage = .thinking x (.done m)) :
      Proceeds r i (r.setStage i (.playing m))
  | ask {x : Nat} {positions : List Position} {next : List Evaluation → Inquiry Match} {hub : Hub}
      (stage : (r.worker i).stage = .thinking x (.ask positions next))
      (ok : r.arena.hub.request x positions = .ok hub) :
      Proceeds r i ((r.setHub hub).setStage i (.waiting x next))
  | answer {x : Nat} {next : List Evaluation → Inquiry Match} {answer : List Evaluation} {hub : Hub}
      (stage : (r.worker i).stage = .waiting x next)
      (ok : r.arena.hub.collect? x = some (answer, hub)) :
      Proceeds r i ((r.setHub hub).setStage i (.thinking x (next answer)))
  | close {m : Match} {hub : Hub} (stage : (r.worker i).stage = .playing m)
      (ended : m.game.isOver = true)
      (ok : r.arena.hub.endGame (r.worker i).black (r.worker i).white = .ok hub)
      (log : Array String) (ns : Array Notice) :
      Proceeds r i (((r.notify ns).setHub hub).setStage i (.closing { m with log }))
  | closed {m : Match} {arena : Arena} (stage : (r.worker i).stage = .closing m)
      (idle : isIdle r.arena.hub (r.worker i).black = true)
      (ok : r.arena.takeIn r.table (r.worker i).number m.game m.black.summary m.white.summary =
        .ok arena) (ns : Array Notice) :
      Proceeds r i ({ r with arena, notices := ns }.setStage i (.finished m))
  | stay : Proceeds r i r

theorem proceed_eq_ok (ok : r.proceed i = .ok r') : r.Proceeds i r' := by
  unfold proceed at ok
  cases hstage : (r.worker i).stage with
  | fresh m =>
    simp only [hstage] at ok
    obtain ⟨hub, hstart, ok⟩ := bind_eq_ok ok
    cases ok
    exact .begin hstage hstart
  | opening m =>
    simp only [hstage] at ok
    cases ok
    split
    · exact .opened hstage ‹_›
    · exact .stay
  | playing m =>
    simp only [hstage] at ok
    cases hover : m.game.isOver with
    | false =>
      rw [if_neg (by simp [hover])] at ok
      cases ok
      exact .turn hstage hover #[] _ _
    | true =>
      rw [if_pos hover] at ok
      obtain ⟨hub, hend, ok⟩ := bind_eq_ok ok
      cases ok
      exact .close hstage hover hend #[] _
  | thinking x work =>
    cases work with
    | done m =>
      simp only [hstage] at ok
      cases ok
      exact .turned hstage
    | fail fault =>
      simp only [hstage] at ok
      cases ok
    | ask positions next =>
      simp only [hstage] at ok
      obtain ⟨hub, hask, ok⟩ := bind_eq_ok ok
      cases ok
      exact .ask hstage hask
  | waiting x next =>
    simp only [hstage] at ok
    cases hcollect : r.arena.hub.collect? x with
    | none =>
      simp only [hcollect] at ok
      cases ok
      exact .stay
    | some collected =>
      obtain ⟨answer, hub⟩ := collected
      simp only [hcollect] at ok
      cases ok
      exact .answer hstage hcollect
  | closing m =>
    simp only [hstage] at ok
    split at ok
    · rename_i hidle
      obtain ⟨arena, htake, ok⟩ := bind_eq_ok ok
      cases ok
      exact .closed hstage hidle htake _
    · cases ok
      exact .stay
  | finished m =>
    simp only [hstage] at ok
    cases ok
    exact .stay

theorem Proceeds.size (hp : r.Proceeds i r') : r'.workers.size = r.workers.size := by
  cases hp <;> simp

/-- A task is a step of a worker, or an event of the hub that no thread minds. -/
theorem perform_eq_ok {t : Task} (ok : r.perform t = .ok r') :
    r' = r ∨ (∃ i < r.workers.size, r.Proceeds i r') ∨
      ∃ e hub, e.isStray = true ∧ r.arena.hub.act e = .ok hub ∧ r' = r.setHub hub := by
  cases t with
  | worker i =>
    rw [perform] at ok
    split at ok
    · exact .inr (.inl ⟨i, ‹_›, proceed_eq_ok ok⟩)
    · exact .inl (Except.ok.inj ok).symm
  | hub e =>
    rw [perform] at ok
    split at ok
    · rw [map_eq_pure_bind] at ok
      obtain ⟨hub, hact, ok⟩ := bind_eq_ok ok
      exact .inr (.inr ⟨e, hub, ‹_›, hact, (Except.ok.inj ok).symm⟩)
    · exact .inl (Except.ok.inj ok).symm

theorem size_perform {t : Task} (ok : r.perform t = .ok r') :
    r'.workers.size = r.workers.size := by
  rcases perform_eq_ok ok with rfl | ⟨i, -, hp⟩ | ⟨e, hub, -, -, rfl⟩
  · rfl
  · exact hp.size
  · rfl

end Run

end Goban
