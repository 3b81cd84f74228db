import Goban.Fault
import Goban.Move.Notation

/-!
# Calls

A call works on a state and may change it several times before it comes to its end. What may stop it
is a move that is refused, or a broken promise; the two are kept apart. The state stays as it is
then: nothing is taken back of itself.
-/

namespace Goban

/-- Why a move is refused. -/
inductive IllegalMove where
  | occupied (p : Point)
  | ko (p : Point)
  | suicide (p : Point)
  | resign
  | gameOver
deriving DecidableEq, Repr

namespace IllegalMove

/-- The text of a refusal. -/
def message : IllegalMove → String
  | occupied p => s!"point {(Move.stone p).vertex} is occupied"
  | ko p => s!"point {(Move.stone p).vertex} is a ko"
  | suicide p => s!"playing {(Move.stone p).vertex} is suicide"
  | resign => "resign is not a board move"
  | gameOver => "the game is already over"

end IllegalMove

/-- What keeps a call from its end. -/
inductive Setback where
  /-- A move is refused, for a reason that is given to the caller. -/
  | refused (reason : IllegalMove)
  /-- A promise is broken, and the program with it. -/
  | broken (fault : Fault)
deriving DecidableEq, Repr

/-- The fault of a caller who relies on a call, if a refusal counts as this one. -/
def Setback.fault (refusal : IllegalMove → Fault) : Setback → Fault
  | refused reason => refusal reason
  | broken fault => fault

/-- Work on a state, which errors of a kind may stop. -/
abbrev Call (ε σ : Type) := EStateM ε σ

namespace Call

variable {ε σ τ α : Type}

/-- What the rules say of a move. -/
def allow : Except IllegalMove α → Call Setback σ α
  | .ok a => pure a
  | .error reason => throw (.refused reason)

/-- What must not fail. -/
def rely : Except Fault α → Call Setback σ α
  | .ok a => pure a
  | .error fault => throw (.broken fault)

/-- Work on a part of a state, which stays as the work leaves it. -/
def within (part : σ → τ) (renew : σ → τ → σ) (work : Call ε τ α) : Call ε σ α := fun s =>
  match work.run (part s) with
  | .ok a t => .ok a (renew s t)
  | .error setback t => .error setback (renew s t)

/-- The state at the end of a call, or the reason why it does not come to its end. -/
def outcome (work : Call ε σ Unit) (s : σ) : Except ε σ :=
  match work.run s with
  | .ok _ s => .ok s
  | .error setback _ => .error setback

/-- The state in which a call leaves off, whether it comes to its end or not. -/
def after (work : Call ε σ α) (s : σ) : σ :=
  match work.run s with
  | .ok _ s => s
  | .error _ s => s

/-- The end of a call that changes the state as a whole, or refuses and leaves it as it is. -/
def settled (s : σ) : Except ε σ → EStateM.Result ε σ Unit
  | .ok s => .ok () s
  | .error setback => .error setback s

variable {work : Call ε σ Unit} {s s' : σ} {ruling : Except ε σ} {setback : ε}

theorem outcome_eq_ok_iff : work.outcome s = .ok s' ↔ work.run s = .ok () s' := by
  unfold outcome
  cases work.run s with
  | ok a t => exact ⟨fun h => by cases h; rfl, fun h => by cases h; rfl⟩
  | error setback t => exact iff_of_false nofun nofun

theorem after_of_outcome (h : work.outcome s = .ok s') : work.after s = s' := by
  rw [after, outcome_eq_ok_iff.mp h]

theorem outcome_of_settled (h : work.run s = settled s ruling) : work.outcome s = ruling := by
  unfold outcome
  rw [h]
  cases ruling <;> rfl

theorem after_of_settled (h : work.run s = settled s ruling) :
    work.after s = ruling.toOption.getD s := by
  unfold after
  rw [h]
  cases ruling <;> rfl

theorem run_within (part : σ → τ) (renew : σ → τ → σ) (work : Call ε τ α) (s : σ) :
    (within part renew work).run s =
      match work.run (part s) with
      | .ok a t => .ok a (renew s t)
      | .error setback t => .error setback (renew s t) := rfl

theorem run_adaptExcept {δ : Type} (f : ε → δ) (work : Call ε σ α) (s : σ) :
    (EStateM.adaptExcept f work).run s =
      match work.run s with
      | .ok a s => .ok a s
      | .error setback s => .error (f setback) s := by
  simp only [EStateM.adaptExcept, EStateM.run]
  cases work s <;> rfl

end Call

end Goban
