import Goban.Position
import Goban.Proofs.Rules.Chains

/-!
# What a play does

A play is refused, or it is a pass, or it puts a stone with its captures on the board
(`Position.play_eq_ok`). A board that breathes goes on breathing (`Position.breathes_playAll`). The
compensation has no part in any of this, and positions that agree lead to positions that agree
(`Position.agrees_play`).
-/

namespace Goban

namespace Position

variable {pos pos' : Position} {p : Point} {m : Move}

/-- The position after a pass. -/
def afterPass (pos : Position) : Position where
  board := pos.board
  history := pos.remember
  toPlay := pos.toPlay.other
  ko := none
  moveCount := pos.moveCount + 1
  passes := pos.passes + 1
  komi := pos.komi

/-- The position after a stone on `p` that is not refused. -/
def afterStone (pos : Position) (p : Point) : Position where
  board := pos.board.put pos.toPlay p
  history := pos.remember
  toPlay := pos.toPlay.other
  ko := koAfter (pos.board.put pos.toPlay p) (pos.board.taken pos.toPlay p) p
  moveCount := pos.moveCount + 1
  passes := 0
  komi := pos.komi

/-! ## What a move does to the position -/

/-- A stone that would stand without a liberty is taken back, and with it all that it captured. -/
theorem run_putStone (pos : Position) (p : Point) : (putStone p).run pos =
    if pos.board[p].isSome then .error (.occupied p) pos
    else if pos.ko = some p then .error (.ko p) pos
    else if (pos.board.put pos.toPlay p).libertyCount p = 0 then .error (.suicide p) pos
    else .ok () { pos with
      board := pos.board.put pos.toPlay p
      ko := koAfter (pos.board.put pos.toPlay p) (pos.board.taken pos.toPlay p) p
      passes := 0 } := by
  unfold putStone
  rw [EStateM.run_bind, EStateM.run_get]
  simp only
  split
  · rfl
  · split
    · rfl
    · have hcapture : Board.capture (pos.board.set p (some pos.toPlay) p.isLt) pos.toPlay.other p =
          (pos.board.put pos.toPlay p, pos.board.taken pos.toPlay p) := Board.capture_place _ _ _
      simp only [EStateM.run_bind, EStateM.run_modify, hcapture]
      -- The board is put back in the first case, which restores the position.
      split <;> rfl

theorem run_makeMove_pass (pos : Position) : (makeMove .pass).run pos =
    Call.settled pos (if pos.isOver then .error .gameOver else .ok pos.afterPass) := by
  unfold makeMove
  simp only [EStateM.run_bind, EStateM.run_get]
  rw [if_neg nofun]
  split <;> rfl

theorem run_makeMove_stone (pos : Position) (p : Point) : (makeMove (.stone p)).run pos =
    Call.settled pos (
      if pos.isOver then .error .gameOver
      else if pos.board[p].isSome then .error (.occupied p)
      else if pos.ko = some p then .error (.ko p)
      else if (pos.board.put pos.toPlay p).libertyCount p = 0 then .error (.suicide p)
      else .ok (pos.afterStone p)) := by
  unfold makeMove
  simp only [EStateM.run_bind, EStateM.run_get]
  rw [if_neg nofun]
  split
  · rfl
  · rw [EStateM.run_bind, run_putStone]
    by_cases hp : pos.board[p].isSome
    · simp only [if_pos hp]
      rfl
    · by_cases hko : pos.ko = some p
      · simp only [if_neg hp, if_pos hko]
        rfl
      · by_cases hlib : (pos.board.put pos.toPlay p).libertyCount p = 0
        · simp only [if_neg hp, if_neg hko, if_pos hlib]
          rfl
        · simp only [if_neg hp, if_neg hko, if_neg hlib]
          rfl

theorem play_pass (pos : Position) :
    pos.play .pass = if pos.isOver then .error .gameOver else .ok pos.afterPass :=
  Call.outcome_of_settled (run_makeMove_pass pos)

theorem play_stone_eq (pos : Position) (p : Point) : pos.play (.stone p) =
    if pos.isOver then .error .gameOver
    else if pos.board[p].isSome then .error (.occupied p)
    else if pos.ko = some p then .error (.ko p)
    else if (pos.board.put pos.toPlay p).libertyCount p = 0 then .error (.suicide p)
    else .ok (pos.afterStone p) :=
  Call.outcome_of_settled (run_makeMove_stone pos p)

/-- A move that is refused leaves the position as it was. -/
theorem run_makeMove (pos : Position) (m : Move) :
    (makeMove m).run pos = Call.settled pos (pos.play m) := by
  cases m with
  | resign => rfl
  | pass => rw [play_pass, run_makeMove_pass]
  | stone p => rw [play_stone_eq, run_makeMove_stone]

/-! ## Moves that are accepted -/

theorem play_stone_eq_ok (h : pos.play (.stone p) = .ok pos') :
    pos.board[p] = none ∧ pos.ko ≠ some p ∧
      (pos.board.put pos.toPlay p).libertyCount p ≠ 0 ∧ pos' = pos.afterStone p := by
  rw [play_stone_eq] at h
  split at h
  · cases h
  · split at h
    · cases h
    · rename_i hp
      split at h
      · cases h
      · rename_i hko
        split at h
        · cases h
        · rename_i hlib
          exact ⟨by simpa using hp, hko, hlib, (Except.ok.inj h).symm⟩

theorem isOver_of_play (h : pos.play m = .ok pos') : pos.isOver = false := by
  by_contra hover
  have hover : pos.isOver = true := (Bool.not_eq_false _).mp hover
  cases m with
  | resign => cases h
  | pass =>
    rw [play_pass, if_pos hover] at h
    cases h
  | stone p =>
    rw [play_stone_eq, if_pos hover] at h
    cases h

/-- A play that is accepted passes, or puts a stone with a liberty on an empty point. -/
theorem play_eq_ok (h : pos.play m = .ok pos') : m = .pass ∧ pos' = pos.afterPass ∨
    ∃ p, m = .stone p ∧ pos.board[p] = none ∧
      (pos.board.put pos.toPlay p).libertyCount p ≠ 0 ∧
      pos'.board = pos.board.put pos.toPlay p ∧ pos'.toPlay = pos.toPlay.other := by
  cases m with
  | resign => cases h
  | pass =>
    rw [play_pass] at h
    split at h
    · cases h
    · exact .inl ⟨rfl, (Except.ok.inj h).symm⟩
  | stone p =>
    obtain ⟨hp, -, hlib, rfl⟩ := play_stone_eq_ok h
    exact .inr ⟨p, rfl, hp, hlib, rfl, rfl⟩

/-- A play that is accepted leads to the position after a pass or after a stone. -/
theorem play_cases (h : pos.play m = .ok pos') : m = .pass ∧ pos' = pos.afterPass ∨
    ∃ p, m = .stone p ∧ pos' = pos.afterStone p := by
  rcases play_eq_ok h with hpass | ⟨p, rfl, -⟩
  · exact .inl hpass
  · obtain ⟨-, -, -, hnext⟩ := play_stone_eq_ok h
    exact .inr ⟨p, rfl, hnext⟩

theorem toPlay_play (h : pos.play m = .ok pos') : pos'.toPlay = pos.toPlay.other := by
  rcases play_cases h with ⟨-, rfl⟩ | ⟨p, -, rfl⟩ <;> rfl

theorem moveCount_play (h : pos.play m = .ok pos') : pos'.moveCount = pos.moveCount + 1 := by
  rcases play_cases h with ⟨-, rfl⟩ | ⟨p, -, rfl⟩ <;> rfl

/-- Below the end of the word a move more is counted. -/
theorem toNat_moveCount_play (h : pos.play m = .ok pos')
    (hcount : pos.moveCount.toNat + 1 < 2 ^ 32) :
    pos'.moveCount.toNat = pos.moveCount.toNat + 1 := by
  rw [moveCount_play h, UInt32.toNat_add, UInt32.toNat_one, Nat.mod_eq_of_lt hcount]

theorem komi_play (h : pos.play m = .ok pos') : pos'.komi = pos.komi := by
  rcases play_cases h with ⟨-, rfl⟩ | ⟨p, -, rfl⟩
  · rfl
  · simp only [afterStone]

theorem play_stone (hover : pos.isOver = false) (hp : pos.board[p] = none)
    (hko : pos.ko ≠ some p) :
    pos.play (.stone p) =
      if (pos.board.put pos.toPlay p).libertyCount p = 0 then .error (.suicide p)
      else .ok (pos.afterStone p) := by
  rw [play_stone_eq, hover, if_neg Bool.false_ne_true, if_neg (by simp [hp]), if_neg hko]

/-- A stone on an empty point is accepted if no ko forbids it and it has a liberty in the end. -/
theorem exists_play_stone (hover : pos.isOver = false) (hp : pos.board[p] = none)
    (hko : pos.ko ≠ some p) (hlib : (pos.board.put pos.toPlay p).libertyCount p ≠ 0) :
    ∃ pos', pos.play (.stone p) = .ok pos' := by
  rw [play_stone hover hp hko]
  exact ⟨_, if_neg hlib⟩

theorem breathes_play (hb : pos.board.Breathes) (h : pos.play m = .ok pos') :
    pos'.board.Breathes := by
  rcases play_eq_ok h with ⟨-, rfl⟩ | ⟨p, -, hp, hlib, hboard, -⟩
  · exact hb
  · rw [hboard]
    exact hb.put hp hlib

theorem playAll_cons (pos : Position) (m : Move) (moves : List Move) :
    pos.playAll (m :: moves) = (pos.play m).bind fun next => next.playAll moves := rfl

theorem playAll_append {mid : Position} {moves : List Move} (h : pos.playAll moves = .ok mid)
    (more : List Move) : pos.playAll (moves ++ more) = mid.playAll more := by
  unfold playAll at h ⊢
  rw [List.foldlM_append, h]
  rfl

theorem playAll_concat {mid : Position} {moves : List Move} (h : pos.playAll moves = .ok mid)
    (hplay : mid.play m = .ok pos') : pos.playAll (moves ++ [m]) = .ok pos' := by
  rw [playAll_append h, playAll_cons, hplay]
  rfl

/-- What holds before any play and is kept by each play, together with the moves made so far, holds
after a sequence of plays. -/
theorem playAll_invariant {P : List Move → Position → Prop}
    (step : ∀ made pos m pos', P made pos → pos.play m = .ok pos' → P (made ++ [m]) pos')
    (hpos : P [] pos) {moves : List Move} (h : pos.playAll moves = .ok pos') : P moves pos' := by
  have hafter : ∀ made pos, P made pos → pos.playAll moves = .ok pos' → P (made ++ moves) pos' := by
    clear h hpos
    induction moves with
    | nil =>
      intro made pos hpos h
      cases h
      rw [List.append_nil]
      exact hpos
    | cons m moves ih =>
      intro made pos hpos h
      rw [playAll_cons] at h
      cases hm : pos.play m with
      | error refusal =>
        rw [hm] at h
        cases h
      | ok next =>
        rw [hm] at h
        rw [List.append_cons]
        exact ih _ next (step made pos m next hpos hm) h
  exact hafter [] pos hpos h

/-- What every play keeps, a sequence of plays keeps. -/
theorem playAll_induction {P : Position → Prop}
    (step : ∀ pos m pos', P pos → pos.play m = .ok pos' → P pos') (hpos : P pos) {moves : List Move}
    (h : pos.playAll moves = .ok pos') : P pos' :=
  playAll_invariant (P := fun _ => P) (fun _ pos m pos' => step pos m pos') hpos h

theorem getElem_blank (p : Point) : Board.blank[p] = none := Vector.getElem_replicate p.isLt

theorem breathes_initial (komi : Single) : (initial komi).board.Breathes :=
  fun p hp => absurd (getElem_blank p) hp

/-- After any plays from the empty board every chain has a liberty. -/
theorem breathes_playAll {komi : Single} {moves : List Move}
    (h : (initial komi).playAll moves = .ok pos) : pos.board.Breathes :=
  playAll_induction (P := fun pos => pos.board.Breathes) (fun _ _ _ => breathes_play)
    (breathes_initial komi) h

/-! ## Positions that agree -/

theorem agrees_iff : pos.agrees pos' = true ↔
    pos.komi.equals pos'.komi = true ∧ { pos with komi := pos'.komi } = pos' := by
  unfold agrees
  rw [Bool.and_eq_true, decide_eq_true_eq]

/-- The rules do not look at the compensation. -/
theorem play_withKomi (pos : Position) (komi : Single) (m : Move) :
    ({ pos with komi } : Position).play m = (fun next => { next with komi }) <$> pos.play m := by
  cases m with
  | resign => rfl
  | pass =>
    rw [play_pass, play_pass]
    show (if pos.isOver then _ else _) = _
    split <;> rfl
  | stone p =>
    rw [play_stone_eq, play_stone_eq]
    show (if pos.isOver then _ else if pos.board[p].isSome then _ else if pos.ko = some p then _
      else if (pos.board.put pos.toPlay p).libertyCount p = 0 then _ else _) = _
    split
    · rfl
    · split
      · rfl
      · split
        · rfl
        · split <;> rfl

/-- Positions that agree lead to positions that agree. -/
theorem agrees_play {next : Position} (h : pos.agrees pos' = true) (hplay : pos.play m = .ok next) :
    ∃ next', pos'.play m = .ok next' ∧ next.agrees next' = true := by
  obtain ⟨hkomi, hpos⟩ := agrees_iff.mp h
  refine ⟨{ next with komi := pos'.komi }, ?_, agrees_iff.mpr ⟨?_, rfl⟩⟩
  · rw [← hpos, play_withKomi, hplay]
    rfl
  · rw [komi_play hplay]
    exact hkomi

end Position

end Goban
