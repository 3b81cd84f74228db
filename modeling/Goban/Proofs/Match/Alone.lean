import Goban.Proofs.Match.Names

/-!
# Matches with both models at hand

`Match.playOn` plays a match with functions for the models of both sides. Where it comes to within so
many turns (`Match.ending?`) does not depend on names. Something continues a match
(`Match.ContinuedBy`) if it comes to the same end, given fewer turns: the first turns of the match,
or the rest of a turn that is under way. A match has one end, however it was continued
(`Match.ContinuedBy.unique`).
-/

namespace Goban

namespace Match

variable {m m' : Match}

/-! ## Playing on -/

variable (reply : Color → List Position → List Evaluation)

/-- The end of a match with the models of both sides at hand, if it comes within so many turns. -/
def ending? (m : Match) (turns : Nat) : Option Match :=
  bare <$> (playOn reply false turns m []).2.toOption

/-- The end of a match in the middle of a turn of a color, if it comes within so many turns more. -/
def endingAfter? (color : Color) (work : Inquiry Match) (turns : Nat) : Option Match :=
  (work.outcome (reply color)).toOption >>= fun m => ending? reply m turns

/-- What was asked before plays no part in what comes of a match. -/
theorem playOn_calls (verbose : Bool) (turns : Nat) (m : Match) (calls calls' : Calls) :
    (playOn reply verbose turns m calls).2 = (playOn reply verbose turns m calls').2 := by
  induction turns generalizing m calls calls' with
  | zero => rfl
  | succ turns ih =>
    rw [playOn, playOn]
    split
    · rfl
    · obtain ⟨asked, outcome⟩ := (m.turn verbose).answer (reply m.mover)
      cases outcome with
      | error fault => rfl
      | ok m => exact ih m _ _

theorem ending?_of_isOver (turns : Nat) (hover : m.game.isOver = true) :
    ending? reply m turns = some m.bare := by
  unfold ending?
  cases turns <;> rw [playOn, if_pos hover] <;> rfl

theorem ending?_zero (hgoes : m.game.isOver = false) : ending? reply m 0 = none := by
  unfold ending?
  rw [playOn, hgoes, if_neg Bool.false_ne_true]
  rfl

theorem ending?_succ (turns : Nat) (hgoes : m.game.isOver = false) :
    ending? reply m (turns + 1) = endingAfter? reply m.mover (m.turn false) turns := by
  unfold ending? endingAfter? Inquiry.outcome
  rw [playOn, hgoes, if_neg Bool.false_ne_true]
  obtain ⟨asked, outcome⟩ := (m.turn false).answer (reply m.mover)
  cases outcome with
  | error fault => rfl
  | ok m =>
    simp only
    rw [playOn_calls reply false turns m _ []]
    rfl

/-- Where a match comes to does not depend on names. -/
theorem ending?_bare (turns : Nat) (m : Match) :
    ending? reply m.bare turns = ending? reply m turns := by
  induction turns generalizing m with
  | zero =>
    cases hover : m.game.isOver with
    | true =>
      rw [ending?_of_isOver reply 0 hover, ending?_of_isOver (m := m.bare) reply 0 hover]
      rfl
    | false => rw [ending?_zero reply hover, ending?_zero (m := m.bare) reply hover]
  | succ turns ih =>
    cases hover : m.game.isOver with
    | true =>
      rw [ending?_of_isOver reply _ hover, ending?_of_isOver (m := m.bare) reply _ hover]
      rfl
    | false =>
      rw [ending?_succ reply turns hover, ending?_succ (m := m.bare) reply turns hover]
      unfold endingAfter?
      rw [turn_bare _ false, bind_map_left]
      exact congrArg _ (funext ih)

theorem ending?_withLog (m : Match) (log : Array String) :
    ending? reply { m with log } = ending? reply m := by
  funext turns
  rw [← ending?_bare, ← ending?_bare reply turns m]
  rfl

/-! ## Continuations -/

/-- From some turn on, playing a match on comes to what its continuation comes to. -/
def ContinuedBy (start : Match) (rest : Nat → Option Match) : Prop :=
  ∃ turns, ∀ n, ending? reply start (n + turns) = rest n

namespace ContinuedBy

variable {reply} {start : Match}

theorem refl (h : m.bare = start.bare) : start.ContinuedBy reply (ending? reply m) := by
  refine ⟨0, fun n => ?_⟩
  rw [Nat.add_zero, ← ending?_bare, ← h, ending?_bare]

/-- While a match goes on, it is continued by its next turn, reported or not, whatever was reported
before. -/
theorem turn (h : start.ContinuedBy reply (ending? reply m)) (hgoes : m.game.isOver = false)
    (verbose : Bool) (log : Array String) :
    start.ContinuedBy reply (endingAfter? reply m.mover ({ m with log }.turn verbose)) := by
  obtain ⟨turns, h⟩ := h
  refine ⟨turns + 1, fun n => ?_⟩
  rw [← Nat.add_assoc, Nat.add_right_comm, h, ← ending?_bare,
    ending?_succ (m := m.bare) reply n hgoes]
  unfold endingAfter?
  rw [show m.bare = ({ m with log } : Match).bare from rfl, turn_bare _ verbose, bind_map_left]
  exact congrArg _ (funext fun m => ending?_bare reply n m)

/-- A match has one end. -/
theorem unique (h : start.ContinuedBy reply (ending? reply m))
    (h' : start.ContinuedBy reply (ending? reply m')) (hover : m.game.isOver = true)
    (hover' : m'.game.isOver = true) : m.bare = m'.bare := by
  obtain ⟨turns, h⟩ := h
  obtain ⟨turns', h'⟩ := h'
  -- As many turns as both took together are enough for either.
  have hend := h turns'
  have hend' := h' turns
  rw [ending?_of_isOver reply _ hover, Nat.add_comm] at hend
  rw [ending?_of_isOver reply _ hover', hend] at hend'
  exact Option.some.inj hend'

end ContinuedBy

end Match

end Goban
