import Goban.Match
import Goban.Proofs.Game.Faithful
import Goban.Proofs.Search.Steady
import Goban.Proofs.Single.Comparison

/-!
# Game and players stay together

Between the turns of a match both players await nothing and have the position of the game at their
root (`Match.Together`). A turn brings them there again (`Match.Together.turn`): what is chosen is a
resignation or a legal move, so the game takes it and both trees follow. Hence no turn meets a
fault, whatever the models answer, and a match that comes to its end was resigned by the side to
play or ends in two passes (`Match.Reachable.stays_together`).
-/

namespace Goban

namespace Position

variable {pos next : Position} {m : Move}

theorem agrees_self (h : pos.komi.isNaN = false) : pos.agrees pos = true :=
  agrees_iff.mpr ⟨Single.equals_self h, rfl⟩

/-- A move that is accepted adds a pass to those that came last, or ends their row. -/
theorem passes_play (h : pos.play m = .ok next) :
    m = .pass ∧ next.passes = pos.passes + 1 ∨ next.passes = 0 := by
  rcases play_cases h with ⟨rfl, rfl⟩ | ⟨p, -, rfl⟩
  · exact .inl ⟨rfl, rfl⟩
  · exact .inr rfl

end Position

namespace Match

variable {start next : Position} {g : Game} {m m' : Match} {p : Player} {move : Move}
  {color : Color} {verbose : Bool}

/-- The moves of a game, after the passes that came last before it. -/
def plies (start : Position) (g : Game) : List Move :=
  List.replicate start.passes .pass ++ g.turns.map (·.move)

/-- How a game comes to its end: the side to play resigns and has lost, or both sides pass. -/
def Ended (start : Position) (g : Game) : Prop :=
  g.ending = some .resignation ∧ g.winner = some g.position.toPlay.other ∨
    g.ending = some .bothPassed ∧ g.position.passes = 2 ∧ [.pass, .pass] <:+ plies start g

/-- Game and players between two turns. -/
structure Together (start : Position) (m : Match) : Prop where
  players : ∀ color, (m.player color).Awaits m.game.position []
  komi : m.game.position.komi.isNaN = false
  passes : List.replicate m.game.position.passes .pass <:+ plies start m.game
  goes : m.game.isOver = false → m.game.position.isOver = false
  ended : m.game.isOver = true → Ended start m.game

/-! ## The game -/

theorem plies_moved (start : Position) (g : Game) (move : Move) (comment : String)
    (next : Position) : plies start (g.moved move comment next) = plies start g ++ [move] := by
  unfold plies
  rw [Game.turns_moved, List.map_append, ← List.append_assoc]
  rfl

theorem isOver_moved (hgoes : g.isOver = false) (move : Move) (comment : String)
    (next : Position) : (g.moved move comment next).isOver = next.isOver := by
  rw [Game.isOver, Game.ending_moved hgoes]
  cases next.isOver <;> rfl

theorem passes_moved {comment : String} (hplay : g.position.play move = .ok next)
    (hpasses : List.replicate g.position.passes .pass <:+ plies start g) :
    List.replicate next.passes .pass <:+ plies start (g.moved move comment next) := by
  rw [plies_moved]
  rcases Position.passes_play hplay with ⟨rfl, hcount⟩ | hcount
  · rw [hcount, List.replicate_succ']
    exact (List.suffix_append_inj_of_length_eq rfl).mpr ⟨hpasses, rfl⟩
  · rw [hcount]
    exact List.nil_suffix

theorem ended_resigned (start : Position) (g : Game) : Ended start g.resigned :=
  .inl ⟨rfl, g.winner_resigned⟩

/-- A game that a move ends has two passes at its end. -/
theorem ended_moved {comment : String} (hgoes : g.isOver = false)
    (hplay : g.position.play move = .ok next) (hover : next.isOver = true)
    (hpasses : List.replicate next.passes .pass <:+ plies start (g.moved move comment next)) :
    Ended start (g.moved move comment next) := by
  have hmany : 2 ≤ next.passes := by simpa [Position.isOver] using hover
  have htwo : next.passes = 2 := Nat.le_antisymm (Position.passes_le_two hplay) hmany
  refine .inr ⟨?_, ?_, ?_⟩
  · rw [Game.ending_moved hgoes, if_pos hover]
  · rw [Game.position_moved, htwo]
  · rw [htwo] at hpasses
    exact hpasses

/-! ## One turn -/

theorem commit_resign (hgoes : m.game.isOver = false) (p : Player) :
    m.commit .resign p = .ok { m.withPlayer m.mover p with game := m.game.resigned } := by
  have hgame : m.game.add .resign p.comment = .ok m.game.resigned := by
    rw [Game.add_eq, hgoes, if_neg Bool.false_ne_true, if_pos rfl]
  rw [commit, Player.play_eq, hgame]
  rfl

/-- A move that the rules and both trees accept is made by the mover and followed by its opponent. -/
theorem commit_move {mover opponent : Player} (hgoes : m.game.isOver = false)
    (hplay : m.game.position.play move = .ok next) (hmover : p.advance move = .ok mover)
    (hopponent : (m.player m.mover.other).advance move = .ok opponent) :
    m.commit move p = .ok ({ m.withPlayer m.mover mover with
      game := m.game.moved move p.comment next }.withPlayer m.mover.other opponent) := by
  have hresign : move ≠ .resign := by
    rintro rfl
    cases hplay
  have hgame : m.game.add move p.comment = .ok (m.game.moved move p.comment next) := by
    rw [Game.add_eq, hgoes, if_neg Bool.false_ne_true, if_neg hresign, hplay]
    rfl
  have hfollow : ({ m.withPlayer m.mover mover with
      game := m.game.moved move p.comment next }.player m.mover.other).follow move =
        .ok opponent := by
    rw [player_withGame, player_withPlayer_of_ne (Color.other_ne _), Player.follow_eq, if_neg hresign,
      hopponent]
  rw [commit, Player.play_eq, hgame]
  simp only [if_neg hresign, hmover]
  rw [hfollow]

/-- Both players await nothing if the mover and its opponent do. -/
theorem awaits_of_both {pos : Position} (color : Color) (hmover : (m.player color).Awaits pos [])
    (hother : (m.player color.other).Awaits pos []) (c : Color) : (m.player c).Awaits pos [] := by
  by_cases hc : c = color
  · rw [hc]
    exact hmover
  · rw [Color.eq_other_of_ne hc]
    exact hother

namespace Together

theorem withLog (h : Together start m) (log : Array String) : Together start { m with log } :=
  ⟨h.players, h.komi, h.passes, h.goes, h.ended⟩

/-- A choice is a resignation or a legal move. -/
theorem choose (h : Together start m) (hgoes : m.game.isOver = false) :
    (choose m.game (m.player m.mover)).Always Evaluation.RightSized fun choice =>
      (choice.1 = .resign ∨ m.game.position.isLegal choice.1 = true) ∧
        choice.2.Awaits m.game.position [] := by
  have hover := h.goes hgoes
  unfold Match.choose
  split
  · refine ⟨.inr ?_, h.players _⟩
    simp [Position.isLegal, hover]
  · exact (h.players _).suggest hover (Position.agrees_self h.komi) _

/-- The player and its opponent follow a resignation or a legal move. -/
theorem commit (h : Together start m) (hgoes : m.game.isOver = false)
    (hmove : move = .resign ∨ m.game.position.isLegal move = true)
    (hp : p.Awaits m.game.position []) :
    ∃ m', m.commit move p = .ok m' ∧ Together start m' := by
  rcases hmove with rfl | hlegal
  · refine ⟨_, commit_resign hgoes p, ?_, h.komi, h.passes, nofun,
      fun _ => ended_resigned start m.game⟩
    apply awaits_of_both m.mover
    · rw [player_withGame, player_withPlayer]
      exact hp
    · rw [player_withGame, player_withPlayer_of_ne (Color.other_ne _)]
      exact h.players m.mover.other
  · obtain ⟨next, hplay⟩ := Position.exists_play_of_isLegal hlegal
    obtain ⟨mover, hmover, hmoved, -⟩ := hp.advance hplay
    obtain ⟨opponent, hopponent, hfollowed, -⟩ := (h.players m.mover.other).advance hplay
    refine ⟨_, commit_move hgoes hplay hmover hopponent, ?_, ?_, ?_, ?_, ?_⟩
    · apply awaits_of_both m.mover.other
      · rw [player_withPlayer, game_withPlayer, Game.position_moved]
        exact hfollowed
      · rw [player_withPlayer_of_ne (Color.other_ne _), player_withGame, Color.other_other,
          player_withPlayer, game_withPlayer, Game.position_moved]
        exact hmoved
    · rw [game_withPlayer, Game.position_moved, Position.komi_play hplay]
      exact h.komi
    · rw [game_withPlayer, Game.position_moved]
      exact passes_moved hplay h.passes
    · rw [game_withPlayer, Game.position_moved, isOver_moved hgoes]
      exact id
    · rw [game_withPlayer, isOver_moved hgoes]
      intro hover
      exact ended_moved hgoes hplay hover (passes_moved hplay h.passes)

/-- A turn meets no fault and keeps game and players together. -/
theorem turn (h : Together start m) (hgoes : m.game.isOver = false) (verbose : Bool) :
    (m.turn verbose).Always Evaluation.RightSized (Together start) := by
  unfold Match.turn
  refine Inquiry.always_bind.mpr ((h.choose hgoes).mono ?_)
  rintro ⟨move, p⟩ ⟨hmove, hp⟩
  cases verbose with
  | false =>
    obtain ⟨m', hcommit, h'⟩ := h.commit hgoes hmove hp
    simp only [Bool.false_eq_true, if_false, hcommit]
    exact h'
  | true =>
    obtain ⟨m', hcommit, h'⟩ := (h.withLog (m.log.push p.describe)).commit hgoes hmove hp
    simp only [if_true, hcommit]
    exact h'.withLog _

end Together

/-! ## Whole matches -/

/-- The matches of two players from a position that is not over, with answers of the right size. -/
inductive Reachable (start : Position) : Match → Prop where
  | start {m : Match} {blackName whiteName : String} {options : GameOptions}
      (hover : start.isOver = false) (hkomi : start.komi.isNaN = false)
      (hgame : m.game = .fromPosition blackName whiteName options start)
      (hplayers : ∀ color, ∃ modelName options noise,
        Player.new modelName options noise start = .ok (m.player color)) : Reachable start m
  | turn {m m' : Match} {verbose : Bool} (h : Reachable start m) (hgoes : m.game.isOver = false)
      (hgives : (m.turn verbose).Gives Evaluation.RightSized m') : Reachable start m'

/-- What holds of a match whenever a turn may begin. -/
structure InOrder (start : Position) (m : Match) : Prop where
  /-- Both players have the position of the game. -/
  position : ∀ color, (m.player color).position? = some m.game.position
  /-- While the game goes on, the side to play chooses to resign or a legal move. -/
  choice : m.game.isOver = false →
    (choose m.game (m.player m.mover)).Always Evaluation.RightSized fun choice =>
      choice.1 = .resign ∨ m.game.position.isLegal choice.1 = true
  /-- While the game goes on, no turn meets a fault. -/
  turn : m.game.isOver = false → ∀ verbose,
    (m.turn verbose).Always Evaluation.RightSized fun _ => True
  /-- A game that is over was resigned or passed out. -/
  ended : m.game.isOver = true → Ended start m.game
  /-- Playing on comes to such an end, unless it takes more turns than allowed. -/
  run : ∀ reply verbose turns calls,
    (∀ color positions, Evaluation.RightSized positions (reply color positions)) →
      (playOn reply verbose turns m calls).2 = .error .outOfSteps ∨
        ∃ m', (playOn reply verbose turns m calls).2 = .ok m' ∧ m'.game.isOver = true ∧
          Ended start m'.game

namespace Reachable

theorem together (h : Reachable start m) : Together start m := by
  induction h with
  | @start m blackName whiteName options hover hkomi hgame hplayers =>
    have hposition : m.game.position = start := by rw [hgame, Game.fromPosition]
    have hgoes : m.game.isOver = false := by
      rw [hgame]
      rfl
    have hplies : plies start m.game = List.replicate start.passes .pass := by
      rw [hgame]
      exact List.append_nil _
    refine ⟨?_, ?_, ?_, fun _ => ?_, fun hended => ?_⟩
    · intro color
      obtain ⟨modelName, options, noise, hnew⟩ := hplayers color
      rw [hposition]
      exact .new hnew
    · rw [hposition]
      exact hkomi
    · rw [hposition]
      exact hplies ▸ List.suffix_refl _
    · rw [hposition]
      exact hover
    · rw [hgoes] at hended
      cases hended
  | turn _ hgoes hgives ih => exact (ih.turn hgoes _).of_gives hgives

theorem run (h : Reachable start m) {reply : Color → List Position → List Evaluation}
    (hreply : ∀ color positions, Evaluation.RightSized positions (reply color positions))
    (verbose : Bool) (turns : Nat) (calls : Calls) :
    (playOn reply verbose turns m calls).2 = .error .outOfSteps ∨
      ∃ m', (playOn reply verbose turns m calls).2 = .ok m' ∧ m'.game.isOver = true ∧
        Reachable start m' := by
  induction turns generalizing m calls with
  | zero =>
    rw [playOn]
    split
    · rename_i hover
      exact .inr ⟨m, rfl, hover, h⟩
    · exact .inl rfl
  | succ turns ih =>
    rw [playOn]
    split
    · rename_i hover
      exact .inr ⟨m, rfl, hover, h⟩
    · rename_i hgoes
      have hgoes : m.game.isOver = false := (Bool.not_eq_true _).mp hgoes
      obtain ⟨m', hanswer, hgives⟩ := (h.together.turn hgoes verbose).answer (hreply m.mover)
      simp only [hanswer]
      exact ih (h.turn hgoes hgives) _

/-- Two players at the first position of a game. -/
theorem exists_start : ∃ m, Reachable (.initial GameOptions.usualKomi) m ∧
    m.game.isOver = false := by
  obtain ⟨p, hnew⟩ := Player.exists_new "uniform" .usual Noise.dirichlet
    (.initial GameOptions.usualKomi) (by decide)
  refine ⟨⟨.new "black" "white" .usual, p, p, #[]⟩, ?_, rfl⟩
  refine .start rfl (by decide) rfl ?_
  intro color
  cases color <;> exact ⟨_, _, _, hnew⟩

/-- Whatever two models answer, game and players have one position in every turn, each choice is a
resignation or a legal move, no turn meets a fault, and a game that ends was resigned by the side to
play, which lost it, or ends in two passes. -/
theorem stays_together (h : Reachable start m) : InOrder start m where
  position color := (h.together.players color).known
  choice hgoes := (h.together.choose hgoes).mono fun _ hchoice => hchoice.1
  turn hgoes verbose := (h.together.turn hgoes verbose).mono fun _ _ => trivial
  ended := h.together.ended
  run reply verbose turns calls hreply := by
    rcases h.run hreply verbose turns calls with hout | ⟨m', hend, hover, hm'⟩
    · exact .inl hout
    · exact .inr ⟨m', hend, hover, hm'.together.ended hover⟩

/-- A match of two players after the first turn. -/
theorem stays_together_after_first_turn : ∃ m m',
    Reachable (.initial GameOptions.usualKomi) m ∧ m.game.isOver = false ∧
      (m.turn false).Gives Evaluation.RightSized m' ∧
      InOrder (.initial GameOptions.usualKomi) m' := by
  obtain ⟨m, hm, hgoes⟩ := exists_start
  obtain ⟨m', hgives⟩ := (hm.together.turn hgoes false).exists_gives fun positions =>
    ⟨List.replicate positions.length ⟨List.replicate policySize .zero, .zero⟩, by simp, by simp⟩
  exact ⟨m, m', hm, hgoes, hgives, (hm.turn hgoes hgives).stays_together⟩

end Reachable

end Match

end Goban
