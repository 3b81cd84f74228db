import Goban.Game
import Goban.Proofs.Rules.Attempts

/-!
# The record of a game is faithful

A game takes moves and comments (`Game.Entry`), and refuses some of the moves. Whatever it was told,
its record leads from the first position to the present one, and its ending, its result and its
position fit together (`Game.Told`, kept by every entry: `Game.Told.enter`). A game that is over
refuses every further move and stays as it is (`Game.enters_of_isOver`), so it ends once, by the
first two passes in a row or by the first resignation (`Game.ending_eq_resignation_iff`).
-/

namespace Goban

namespace Game

variable {start next : Position} {g g' : Game} {m : Move} {comment : String}

/-! ## Signs of a result -/

theorem neg_sign (color : Color) : -color.sign = color.other.sign := by
  cases color <;> rfl

/-- The side that won has the sign of the result. -/
theorem winner_sign (color : Color) :
    (if .zero < color.sign then Color.black else .white) = color := by
  cases color <;> decide

/-! ## What a move does to the game -/

/-- The game after a move that leads to the given position. -/
def moved (g : Game) (m : Move) (comment : String) (position : Position) : Game :=
  let g := { g with position, turns := g.turns ++ [⟨g.position.toPlay, m, comment⟩] }
  if position.isOver then { g with ending := some .bothPassed, result := position.score } else g

/-- A move that is refused leaves the game as it was. -/
theorem run_makeMove (g : Game) (m : Move) (comment : String) : (makeMove m comment).run g =
    Call.settled g (
      if g.isOver then .error .gameOver
      else if m = .resign then .ok g.resigned
      else (g.position.play m).map (g.moved m comment)) := by
  unfold makeMove
  simp only [EStateM.run_bind, EStateM.run_get]
  split
  · rfl
  · split
    · rfl
    · rw [EStateM.run_bind, Call.run_within, Position.run_makeMove]
      cases g.position.play m with
      | error reason => rfl
      | ok next =>
        show EStateM.Result.ok () (if next.isOver then _ else _) = .ok () (if next.isOver then _ else _)
        split <;> rfl

theorem add_eq (g : Game) (m : Move) (comment : String) : g.add m comment =
    if g.isOver then .error .gameOver
    else if m = .resign then .ok g.resigned
    else (g.position.play m).map (g.moved m comment) :=
  Call.outcome_of_settled (run_makeMove g m comment)

/-! ## Moves in the record -/

theorem position_moved (g : Game) (m : Move) (comment : String) (next : Position) :
    (g.moved m comment next).position = next := by
  unfold moved
  simp only
  split <;> rfl

theorem turns_moved (g : Game) (m : Move) (comment : String) (next : Position) :
    (g.moved m comment next).turns = g.turns ++ [⟨g.position.toPlay, m, comment⟩] := by
  unfold moved
  simp only
  split <;> rfl

theorem isOver_eq_false : g.isOver = false ↔ g.ending = none := by
  rw [isOver, Option.isSome_eq_false_iff, Option.isNone_iff_eq_none]

/-- A move ends a game that goes on if it leads to a position that is over. -/
theorem ending_moved (hgoes : g.isOver = false) (m : Move) (comment : String) (next : Position) :
    (g.moved m comment next).ending = if next.isOver then some .bothPassed else none := by
  unfold moved
  simp only
  split
  · rfl
  · exact isOver_eq_false.mp hgoes

theorem result_moved (g : Game) (m : Move) (comment : String) (next : Position) :
    (g.moved m comment next).result = if next.isOver then next.score else g.result := by
  unfold moved
  simp only
  split <;> rfl

theorem add_of_isOver (h : g.isOver = true) (m : Move) (comment : String) :
    g.add m comment = .error .gameOver := by
  rw [add_eq, if_pos h]

/-- A move that a game takes is a resignation or can be played. -/
theorem add_eq_ok (h : g.add m comment = .ok g') : g.isOver = false ∧
    (m = .resign ∧ g' = g.resigned ∨
      ∃ next, g.position.play m = .ok next ∧ g' = g.moved m comment next) := by
  rw [add_eq] at h
  split at h
  · cases h
  · rename_i hgoes
    refine ⟨(Bool.not_eq_true _).mp hgoes, ?_⟩
    split at h
    · rename_i hresign
      cases h
      exact .inl ⟨hresign, rfl⟩
    · cases hplay : g.position.play m with
      | error refusal =>
        rw [hplay] at h
        cases h
      | ok next =>
        rw [hplay] at h
        exact .inr ⟨next, rfl, (Except.ok.inj h).symm⟩

/-- A game that goes on takes a resignation, and every move that the rules allow. -/
theorem add_isOk_iff (hgoes : g.isOver = false) (m : Move) (comment : String) :
    (∃ g', g.add m comment = .ok g') ↔ m = .resign ∨ ∃ next, g.position.play m = .ok next := by
  simp only [add_eq]
  rw [hgoes, if_neg Bool.false_ne_true]
  by_cases hresign : m = .resign
  · rw [if_pos hresign]
    exact iff_of_true ⟨_, rfl⟩ (.inl hresign)
  · rw [if_neg hresign]
    cases hplay : g.position.play m with
    | error refusal => exact iff_of_false nofun (not_or.mpr ⟨hresign, nofun⟩)
    | ok next => exact iff_of_true ⟨_, rfl⟩ (.inr ⟨next, rfl⟩)

/-! ## What a game is told -/

/-- What may be written into a game. -/
inductive Entry where
  | move (m : Move) (comment : String)
  | comment (text : String)

/-- The game after an entry. A move leaves it where the call that makes the move leaves off, also if
the move is refused. -/
def enter (g : Game) : Entry → Game
  | .move m comment => (makeMove m comment).after g
  | .comment text => g.addComment text

/-- Two games have the same moves and came to the same end. -/
structure Same (g g' : Game) : Prop where
  position : g'.position = g.position
  turns : g'.turns = g.turns
  ending : g'.ending = g.ending
  result : g'.result = g.result

namespace Same

theorem refl (g : Game) : Same g g := ⟨rfl, rfl, rfl, rfl⟩

theorem trans {g'' : Game} (h : Same g g') (h' : Same g' g'') : Same g g'' :=
  ⟨h'.position.trans h.position, h'.turns.trans h.turns, h'.ending.trans h.ending,
    h'.result.trans h.result⟩

theorem isOver (h : Same g g') : g'.isOver = g.isOver :=
  congrArg Option.isSome h.ending

end Same

/-- A move that is refused leaves no trace. -/
theorem enter_move (g : Game) (m : Move) (comment : String) :
    g.enter (.move m comment) = (g.add m comment).toOption.getD g := by
  rw [add_eq]
  exact Call.after_of_settled (run_makeMove g m comment)

theorem enter_of_add (h : g.add m comment = .ok g') : g.enter (.move m comment) = g' :=
  Call.after_of_outcome h

/-- Only a move that is accepted changes more than the comments. -/
theorem enter_cases (g : Game) (entry : Entry) : Same g (g.enter entry) ∨
    ∃ m comment, entry = .move m comment ∧ g.add m comment = .ok (g.enter entry) := by
  cases entry with
  | comment text => exact .inl ⟨rfl, rfl, rfl, rfl⟩
  | move m comment =>
    cases hadd : g.add m comment with
    | ok g' => exact .inr ⟨m, comment, rfl, by rw [enter_of_add hadd]; exact hadd⟩
    | error refusal =>
      left
      rw [enter_move, hadd]
      exact .refl g

/-- A resignation among some entries is accepted. -/
def ResignsIn (g : Game) (entries : List Entry) : Prop :=
  ∃ before comment after, entries = before ++ .move .resign comment :: after ∧
    ∃ g', (before.foldl enter g).add .resign comment = .ok g'

/-- Ending and result fit the position. -/
def Closes (g : Game) : Prop :=
  match g.ending with
  | none => g.position.isOver = false ∧ g.result = .zero
  | some .bothPassed => g.position.isOver = true ∧ g.result = g.position.score
  | some .resignation => g.position.isOver = false ∧ g.result = g.position.toPlay.other.sign

/-- The record of a game from a start leads to its position, and its end fits. -/
structure Told (start : Position) (g : Game) : Prop where
  replay : start.playAll (g.turns.map (·.move)) = .ok g.position
  turns : ∀ before turn, before ++ [turn] <+: g.turns → ∃ pos,
    start.playAll (before.map (·.move)) = .ok pos ∧ turn.color = pos.toPlay ∧ turn.move ≠ .resign
  closes : g.Closes

theorem Same.closes (h : Same g g') (hcloses : g.Closes) : g'.Closes := by
  unfold Closes at hcloses ⊢
  rw [h.ending, h.position, h.result]
  exact hcloses

theorem closes_of_none (h : g.ending = none) :
    g.Closes ↔ g.position.isOver = false ∧ g.result = .zero := by
  unfold Closes
  rw [h]

theorem closes_of_bothPassed (h : g.ending = some .bothPassed) :
    g.Closes ↔ g.position.isOver = true ∧ g.result = g.position.score := by
  unfold Closes
  rw [h]

theorem closes_of_resignation (h : g.ending = some .resignation) :
    g.Closes ↔ g.position.isOver = false ∧ g.result = g.position.toPlay.other.sign := by
  unfold Closes
  rw [h]

namespace Told

theorem goes (h : Told start g) (hgoes : g.isOver = false) : g.position.isOver = false :=
  ((closes_of_none (isOver_eq_false.mp hgoes)).mp h.closes).1

theorem fromPosition (hover : start.isOver = false) (blackName whiteName : String)
    (options : GameOptions) : Told start (fromPosition blackName whiteName options start) := by
  refine ⟨rfl, ?_, hover, rfl⟩
  intro before turn hprefix
  exact absurd (List.prefix_nil.mp hprefix) (by simp)

/-- A resignation leaves the record as it is. -/
theorem resigned (h : Told start g) (hgoes : g.isOver = false) : Told start g.resigned := by
  exact ⟨h.replay, h.turns, h.goes hgoes, neg_sign g.position.toPlay⟩

/-- A move that is played is written down for the side whose turn it was. -/
theorem moved (h : Told start g) (hgoes : g.isOver = false)
    (hplay : g.position.play m = .ok next) : Told start (g.moved m comment next) := by
  refine ⟨?_, ?_, ?_⟩
  · rw [turns_moved, position_moved, List.map_append]
    exact Position.playAll_concat h.replay hplay
  · intro before turn hprefix
    rw [turns_moved, List.prefix_concat_iff] at hprefix
    rcases hprefix with hlast | hearlier
    · obtain ⟨hbefore, hturn⟩ := List.append_inj' hlast rfl
      rw [hbefore, List.singleton_inj.mp hturn]
      refine ⟨g.position, h.replay, rfl, ?_⟩
      rintro rfl
      cases hplay
    · exact h.turns before turn hearlier
  · have hending := ending_moved hgoes m comment next
    have hresult := result_moved g m comment next
    cases hover : next.isOver with
    | true =>
      rw [hover, if_pos rfl] at hending hresult
      rw [closes_of_bothPassed hending, position_moved]
      exact ⟨hover, hresult⟩
    | false =>
      rw [hover, if_neg Bool.false_ne_true] at hending hresult
      rw [closes_of_none hending, position_moved, hresult]
      exact ⟨hover, ((closes_of_none (isOver_eq_false.mp hgoes)).mp h.closes).2⟩

theorem same (h : Told start g) (hsame : Same g g') : Told start g' := by
  refine ⟨?_, ?_, hsame.closes h.closes⟩
  · rw [hsame.turns, hsame.position]
    exact h.replay
  · rw [hsame.turns]
    exact h.turns

/-- Every entry keeps the record faithful. -/
theorem enter (h : Told start g) (entry : Entry) : Told start (g.enter entry) := by
  rcases enter_cases g entry with hsame | ⟨m, comment, -, hadd⟩
  · exact h.same hsame
  · obtain ⟨hgoes, ⟨-, henter⟩ | ⟨next, hplay, henter⟩⟩ := add_eq_ok hadd
    · rw [henter]
      exact h.resigned hgoes
    · rw [henter]
      exact h.moved hgoes hplay

theorem enters (h : Told start g) (entries : List Entry) :
    Told start (entries.foldl Game.enter g) := by
  induction entries generalizing g with
  | nil => exact h
  | cons entry entries ih => exact ih (h.enter entry)

end Told

/-! ## The end of a game -/

/-- Whatever it is told, a game that is over stays as it is. -/
theorem enters_of_isOver (hover : g.isOver = true) (entries : List Entry) :
    Same g (entries.foldl enter g) := by
  induction entries generalizing g with
  | nil => exact .refl g
  | cons entry entries ih =>
    rcases enter_cases g entry with hsame | ⟨m, comment, -, hadd⟩
    · exact hsame.trans (ih (hsame.isOver.trans hover))
    · rw [add_of_isOver hover] at hadd
      cases hadd

/-- A game that was going when the entries began is resigned exactly if one of them resigns it. -/
theorem ending_eq_resignation_iff (hgoes : g.isOver = false) (entries : List Entry) :
    (entries.foldl enter g).ending = some .resignation ↔ g.ResignsIn entries := by
  constructor
  · intro hending
    -- The last entry resigned, or the game was resigned before it.
    induction entries using List.reverseRecOn with
    | nil =>
      rw [List.foldl_nil, isOver_eq_false.mp hgoes] at hending
      cases hending
    | append_singleton entries entry ih =>
      have hearlier (hbefore : (entries.foldl enter g).ending = some .resignation) :
          g.ResignsIn (entries ++ [entry]) := by
        obtain ⟨before, comment, after, rfl, haccepted⟩ := ih hbefore
        exact ⟨before, comment, after ++ [entry], by simp, haccepted⟩
      rw [List.foldl_append, List.foldl_cons, List.foldl_nil] at hending
      rcases enter_cases (entries.foldl enter g) entry with hsame | ⟨m, comment, rfl, hadd⟩
      · exact hearlier (hsame.ending.symm.trans hending)
      · obtain ⟨hgoing, ⟨rfl, -⟩ | ⟨next, -, henter⟩⟩ := add_eq_ok hadd
        · exact ⟨entries, comment, [], rfl, _, hadd⟩
        · rw [henter] at hending
          rw [ending_moved hgoing] at hending
          split at hending <;> cases hending
  · rintro ⟨before, comment, after, rfl, g', hadd⟩
    have hresigned : g'.ending = some .resignation := by
      obtain ⟨-, ⟨-, rfl⟩ | ⟨next, hplay, -⟩⟩ := add_eq_ok hadd
      · rfl
      · cases hplay
    rw [List.foldl_append, List.foldl_cons, enter_of_add hadd,
      (enters_of_isOver (by rw [isOver, hresigned]; rfl) after).ending]
    exact hresigned

theorem winner_eq_none (h : g.isOver = false) : g.winner = none := by
  rw [winner, h]
  rfl

/-- The side with the better result is the winner of a game that is over. -/
theorem winner_of_isOver (h : g.isOver = true) :
    g.winner = some (if .zero < g.result then .black else .white) := by
  rw [winner, h]
  simp only [Bool.not_true, Bool.false_eq_true, if_false]
  split <;> rfl

theorem resultText_of_winner {color : Color} (h : g.winner = some color) : g.resultText =
    color.letter ++ "+" ++
      if g.ending = some .resignation then "R" else g.result.abs.fixed 1 := by
  unfold resultText
  rw [h]
  simp only
  split
  · rename_i hending
    rw [if_pos hending]
    cases color <;> rfl
  · rename_i hending
    rw [if_neg hending]

/-- The side to play loses by a resignation. -/
theorem winner_resigned (g : Game) : g.resigned.winner = some g.position.toPlay.other := by
  rw [winner_of_isOver rfl]
  show some (if .zero < -g.position.toPlay.sign then Color.black else .white) = _
  rw [neg_sign, winner_sign]

/-- The record of a game that began with one game and was told some entries. -/
structure Faithful (first : Game) (entries : List Entry) (g : Game) : Prop where
  /-- The moves in the record lead from the first position to the present one. -/
  replay : first.position.playAll (g.turns.map (·.move)) = .ok g.position
  /-- Each was made by the side whose turn it was, and none is a resignation. -/
  turns : ∀ before turn, before ++ [turn] <+: g.turns → ∃ pos,
    first.position.playAll (before.map (·.move)) = .ok pos ∧ turn.color = pos.toPlay ∧
      turn.move ≠ .resign
  /-- The game ends by two passes in a row, or by a resignation that is accepted. -/
  ends : g.isOver = true ↔ g.position.isOver = true ∨ first.ResignsIn entries
  passes : g.position.isOver = true ↔ [.pass, .pass] <:+
    List.replicate first.position.passes .pass ++ g.turns.map (·.move)
  goes : g.isOver = false → g.ending = none ∧ g.result = .zero ∧ g.winner = none ∧
    g.resultText = "?"
  /-- After two passes the score is the result. -/
  passed : g.position.isOver = true → g.ending = some .bothPassed ∧ g.result = g.position.score ∧
    ∃ color, g.winner = some color ∧ (color = .black ↔ .zero < g.result) ∧
      g.resultText = color.letter ++ "+" ++ g.result.abs.fixed 1
  /-- The side to play resigned and lost by one. -/
  resigned : first.ResignsIn entries → g.ending = some .resignation ∧
    g.result = g.position.toPlay.other.sign ∧ g.winner = some g.position.toPlay.other ∧
      g.resultText = g.position.toPlay.other.letter ++ "+R"
  /-- Until its end the game takes a resignation, and every move that the rules allow. -/
  takes : g.isOver = false → ∀ m comment,
    (∃ g', g.add m comment = .ok g') ↔ m = .resign ∨ ∃ next, g.position.play m = .ok next
  /-- A game that is over takes no further move, and stays as it is. -/
  closed : g.isOver = true → ∀ more : List Entry, Same g (more.foldl enter g) ∧
    ∀ m comment, (more.foldl enter g).add m comment = .error .gameOver

namespace Told

theorem over_of_passed (h : Told start g) (hover : g.position.isOver = true) :
    g.ending = some .bothPassed ∧ g.result = g.position.score := by
  have hcloses := h.closes
  cases hending : g.ending with
  | none =>
    rw [closes_of_none hending, hover] at hcloses
    cases hcloses.1
  | some ending =>
    cases ending with
    | bothPassed => exact ⟨rfl, ((closes_of_bothPassed hending).mp hcloses).2⟩
    | resignation =>
      rw [closes_of_resignation hending, hover] at hcloses
      cases hcloses.1

/-- A game is over if its position is or if it was resigned. -/
theorem isOver_iff (h : Told start g) : g.isOver = true ↔
    g.position.isOver = true ∨ g.ending = some .resignation := by
  constructor
  · intro hover
    cases hending : g.ending with
    | none =>
      rw [isOver, hending] at hover
      cases hover
    | some ending =>
      cases ending with
      | bothPassed => exact .inl ((closes_of_bothPassed hending).mp h.closes).1
      | resignation => exact .inr rfl
  · rintro (hover | hending)
    · rw [isOver, (h.over_of_passed hover).1]
      rfl
    · rw [isOver, hending]
      rfl

/-- The position of a record is over after two passes in a row. -/
theorem isOver_position_iff (h : Told start g) (hover : start.isOver = false) :
    g.position.isOver = true ↔ [.pass, .pass] <:+
      List.replicate start.passes .pass ++ g.turns.map (·.move) :=
  Position.isOver_playAll_iff hover h.replay

end Told

/-- Whatever moves and comments a game is told, refused moves among them, its record is faithful and
its end fits it. -/
theorem faithful (hover : start.isOver = false) (blackName whiteName : String)
    (options : GameOptions) (entries : List Entry) :
    Faithful (fromPosition blackName whiteName options start) entries
      (entries.foldl enter (fromPosition blackName whiteName options start)) := by
  have htold := (Told.fromPosition hover blackName whiteName options).enters entries
  have hresigns := ending_eq_resignation_iff (g := fromPosition blackName whiteName options start)
    rfl entries
  revert htold hresigns
  generalize entries.foldl enter (fromPosition blackName whiteName options start) = g
  intro htold hresigns
  refine ⟨htold.replay, htold.turns, ?_, htold.isOver_position_iff hover, ?_, ?_, ?_,
    add_isOk_iff, ?_⟩
  · rw [← hresigns]
    exact htold.isOver_iff
  · intro hgoes
    have hending := isOver_eq_false.mp hgoes
    have hwinner := winner_eq_none hgoes
    refine ⟨hending, ((closes_of_none hending).mp htold.closes).2, hwinner, ?_⟩
    rw [resultText, hwinner]
  · intro hpassed
    obtain ⟨hending, hresult⟩ := htold.over_of_passed hpassed
    have hwinner := winner_of_isOver (htold.isOver_iff.mpr (.inl hpassed))
    refine ⟨hending, hresult, _, hwinner, ?_, ?_⟩
    · split
      · exact iff_of_true rfl ‹_›
      · exact iff_of_false nofun ‹_›
    · have hplayed : g.ending ≠ some .resignation := by
        rw [hending]
        decide
      rw [resultText_of_winner hwinner, if_neg hplayed]
  · intro hresigned
    have hending := hresigns.mpr hresigned
    have hresult := ((closes_of_resignation hending).mp htold.closes).2
    have hwinner := winner_of_isOver (htold.isOver_iff.mpr (.inr hending))
    rw [hresult, winner_sign] at hwinner
    refine ⟨hending, hresult, hwinner, ?_⟩
    rw [resultText_of_winner hwinner, if_pos hending]
    cases g.position.toPlay.other <;> rfl
  · intro hclosed more
    have hsame := enters_of_isOver hclosed more
    exact ⟨hsame, add_of_isOver (hsame.isOver.trans hclosed)⟩

/-- Both sides pass, and a stone comes too late. -/
theorem faithful_of_two_passes :
    let entries : List Entry :=
      [.move .pass "first", .comment "a short game", .move .pass "second", .move (.stone 40) "late"]
    let g := entries.foldl enter (.new "black" "white" .usual)
    (Position.initial GameOptions.usual.komi).isOver = false ∧
      g.turns.map (·.move) = [.pass, .pass] ∧ g.ending = some .bothPassed ∧
        g.result = g.position.score ∧ ∀ m comment, g.add m comment = .error .gameOver := by
  intro entries g
  have hfaithful : Faithful (.new "black" "white" .usual) entries g :=
    faithful (by decide) "black" "white" .usual entries
  have hpassed : g.position.isOver = true := rfl
  obtain ⟨hending, hresult, -⟩ := hfaithful.passed hpassed
  have hover := hfaithful.ends.mpr (.inl hpassed)
  exact ⟨by decide, rfl, hending, hresult, (hfaithful.closed hover []).2⟩

end Game

end Goban
