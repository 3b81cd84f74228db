import Goban.Proofs.Game.Faithful
import Goban.Proofs.Rules.Area
import Goban.Proofs.Search.Leaves
import Goban.Proofs.Single.Comparison

/-!
# Who won

A finished position is worth to the search what the sign of its score says, and the record of a game
reads the winner off the same score. They agree on every win of black, and on a win of white by a
score below zero (`Tree.finalOutcome_agrees`). But a search knows draws and a record does not: where
the score is zero, or a NaN because the compensation is one, nothing is won or lost in the search,
and white has won the game (`Tree.draw_is_won_by_white`).
-/

namespace Goban

namespace Game

variable {g : Game} {pos : Position}

/-- A game that was begun where one could play has come to this position. -/
def StandsAt (g : Game) (pos : Position) : Prop :=
  ∃ blackName whiteName options, ∃ start : Position, ∃ entries : List Entry, start.isOver = false ∧
    g = entries.foldl enter (fromPosition blackName whiteName options start) ∧ g.position = pos

/-- A game that has come to a finished position names the winner by the score. -/
theorem StandsAt.winner (h : g.StandsAt pos) (hover : pos.isOver = true) :
    g.winner = some (if .zero < pos.score then .black else .white) := by
  obtain ⟨blackName, whiteName, options, start, entries, hstart, rfl, rfl⟩ := h
  have htold := (Told.fromPosition hstart blackName whiteName options).enters entries
  obtain ⟨hending, hresult⟩ := htold.over_of_passed hover
  rw [winner_of_isOver (htold.isOver_iff.mpr (.inl hover)), hresult]

end Game

namespace Tree

variable {pos : Position} {komi : Single} {moves : List Move}

/-! ## The outcome in the search -/

/-- A leaf with this position is not sent to a model: the search visits its path with this value. -/
def BacksUp (pos : Position) (value : Single) : Prop :=
  ∀ (o : PlayerOptions) (count : Nat) (t t' : Tree) (leaves : List Leaf) (leaf : Leaf),
    t.selectLeaf o = .ok (leaf, t') → leaf.position = pos →
      gather o (count + 1) t leaves = gather o count (t'.along (.visit value) leaf.path) leaves

theorem backsUp_finalOutcome (hover : pos.isOver = true) : BacksUp pos (finalOutcome pos) := by
  rintro o count t t' leaves leaf hselect rfl
  rw [gather, hselect]
  exact if_pos hover

/-- A win of black, a win of white, or a draw. -/
theorem finalOutcome_cases (pos : Position) :
    .zero < pos.score ∧ finalOutcome pos = .one ∨
    ¬ .zero < pos.score ∧ pos.score < .zero ∧ finalOutcome pos = .minusOne ∨
    ¬ .zero < pos.score ∧ ¬ pos.score < .zero ∧ finalOutcome pos = .zero := by
  unfold finalOutcome
  by_cases hblack : .zero < pos.score
  · exact .inl ⟨hblack, if_pos hblack⟩
  · by_cases hwhite : pos.score < .zero
    · exact .inr (.inl ⟨hblack, hwhite, (if_neg hblack).trans (if_pos hwhite)⟩)
    · exact .inr (.inr ⟨hblack, hwhite, (if_neg hblack).trans (if_neg hwhite)⟩)

/-! ## The search and the record -/

/-- A leaf with a position in which moves from the empty board ended by two passes is worth one to
the search exactly if a game that has come there names black as the winner, and minus one exactly if
it names white and the score is neither zero nor a NaN. The leaf is worth nothing exactly on such a
score, and then the game names white. -/
theorem finalOutcome_agrees (hplays : (Position.initial komi).playAll moves = .ok pos)
    (hpasses : [.pass, .pass] <:+ moves) :
    BacksUp pos (finalOutcome pos) ∧ ∀ g : Game, g.StandsAt pos →
      (finalOutcome pos = .one ↔ g.winner = some .black) ∧
      (finalOutcome pos = .minusOne ↔ g.winner = some .white ∧
        ¬ (pos.score.isNaN = true ∨ pos.score.abs = .zero)) ∧
      (finalOutcome pos = .zero ↔ pos.score.isNaN = true ∨ pos.score.abs = .zero) ∧
      (pos.score.isNaN = true ∨ pos.score.abs = .zero → g.winner = some .white) := by
  have hover := (Position.isOver_playAll_iff rfl hplays).mpr hpasses
  refine ⟨backsUp_finalOutcome hover, fun g hg => ?_⟩
  rw [hg.winner hover, ← Single.level_iff]
  rcases finalOutcome_cases pos with
    ⟨hblack, hvalue⟩ | ⟨hblack, hwhite, hvalue⟩ | ⟨hblack, hwhite, hvalue⟩
  · rw [hvalue, if_pos hblack]
    exact ⟨iff_of_true rfl rfl, iff_of_false (by decide) (fun h => nomatch h.1),
      iff_of_false (by decide) fun h => h.1 hblack, fun h => absurd hblack h.1⟩
  · rw [hvalue, if_neg hblack]
    exact ⟨iff_of_false (by decide) nofun, iff_of_true rfl ⟨rfl, fun h => h.2 hwhite⟩,
      iff_of_false (by decide) fun h => h.2 hwhite, fun _ => rfl⟩
  · rw [hvalue, if_neg hblack]
    exact ⟨iff_of_false (by decide) nofun, iff_of_false (by decide) fun h => h.2 ⟨hblack, hwhite⟩,
      iff_of_true rfl ⟨hblack, hwhite⟩, fun _ => rfl⟩

end Tree

/-! ## Two passes on the empty board -/

namespace Position

/-- The empty board after two passes. -/
def passedOut (komi : Single) : Position := (initial komi).afterPass.afterPass

theorem playAll_passedOut (komi : Single) :
    (initial komi).playAll [.pass, .pass] = .ok (passedOut komi) := rfl

/-- Exchanging the colors leaves the empty board as it is, so neither side has the greater area. -/
theorem score_passedOut (komi : Single) : (passedOut komi).score = .ofInt 0 - komi := by
  have hexchanged : Board.blank.exchanged = Board.blank := by
    refine Board.ext_points fun p => ?_
    rw [Board.getElem_exchanged, getElem_blank]
    rfl
  have hareas : Board.blank.area .black = Board.blank.area .white := by
    have hother := Board.area_exchanged Board.blank .black
    rwa [hexchanged] at hother
  have hbalance : Board.blank.areaBalance = 0 := by
    rw [Board.areaBalance_eq_ncard, hareas, sub_self]
  show Single.ofInt Board.blank.areaBalance - komi = _
  rw [hbalance]

end Position

namespace Game

/-- A game in which both sides pass at once. -/
def passedOut (komi : Single) : Game :=
  [Entry.move .pass "", .move .pass ""].foldl enter
    (fromPosition "black" "white" { GameOptions.usual with komi } (.initial komi))

theorem standsAt_passedOut (komi : Single) : (passedOut komi).StandsAt (.passedOut komi) :=
  ⟨_, _, _, _, _, rfl, rfl, rfl⟩

end Game

namespace Tree

/-- With a compensation of seven points white wins the empty board, in the game and in a search from
its position. -/
theorem finalOutcome_agrees_passedOut :
    (Position.initial (.ofInt 7)).playAll [.pass, .pass] = .ok (.passedOut (.ofInt 7)) ∧
      (Game.passedOut (.ofInt 7)).StandsAt (.passedOut (.ofInt 7)) ∧
      (Game.passedOut (.ofInt 7)).winner = some .white ∧
      finalOutcome (.passedOut (.ofInt 7)) = .minusOne ∧
      ∀ o, gather o 1 (.root (.passedOut (.ofInt 7))) [] =
        .ok ([], node ((Node.root (.passedOut (.ofInt 7))).visit .minusOne) []) := by
  have hplays := Position.playAll_passedOut (.ofInt 7)
  have hstands := Game.standsAt_passedOut (.ofInt 7)
  have hwinner := hstands.winner rfl
  have hlevel : ¬ ((Position.passedOut (.ofInt 7)).score.isNaN = true ∨
      (Position.passedOut (.ofInt 7)).score.abs = .zero) := by
    rw [Position.score_passedOut]
    decide +kernel
  rw [Position.score_passedOut, if_neg (by decide +kernel)] at hwinner
  obtain ⟨hbacks, hagrees⟩ := finalOutcome_agrees hplays (List.suffix_refl _)
  have hvalue := (hagrees _ hstands).2.1.mpr ⟨hwinner, hlevel⟩
  refine ⟨hplays, hstands, hwinner, hvalue, fun o => ?_⟩
  rw [hvalue] at hbacks
  exact hbacks o 0 _ _ [] _ (selectLeaf_of_unexpanded rfl rfl) rfl

/-- Without a compensation the empty board is a draw to the search, and won by white in the game. -/
theorem draw_is_won_by_white :
    (Position.initial .zero).playAll [.pass, .pass] = .ok (.passedOut .zero) ∧
      (Game.passedOut .zero).StandsAt (.passedOut .zero) ∧
      (Game.passedOut .zero).winner = some .white ∧
      (∀ o, gather o 1 (.root (.passedOut .zero)) [] =
        .ok ([], node ((Node.root (.passedOut .zero)).visit .zero) [])) ∧
      finalOutcome (.passedOut .zero) = .zero ∧ finalOutcome (.passedOut .zero) ≠ .minusOne := by
  have hvalue : finalOutcome (.passedOut .zero) = .zero := by
    unfold finalOutcome
    rw [Position.score_passedOut]
    decide +kernel
  have hbacks : BacksUp (.passedOut .zero) (finalOutcome (.passedOut .zero)) :=
    backsUp_finalOutcome rfl
  rw [hvalue] at hbacks
  have hwinner := (Game.standsAt_passedOut .zero).winner rfl
  rw [Position.score_passedOut, if_neg (by decide +kernel)] at hwinner
  refine ⟨Position.playAll_passedOut .zero, Game.standsAt_passedOut .zero, hwinner, fun o => ?_,
    hvalue, ?_⟩
  · exact hbacks o 0 _ _ [] _ (selectLeaf_of_unexpanded rfl rfl) rfl
  · rw [hvalue]
    decide

end Tree

end Goban
