import Goban.Proofs.Match.Together
import Goban.Proofs.Rules.Settled
import Goban.Proofs.Search.Readouts

/-!
# A race is passed out

Once no move can change the outcome both sides pass without a search. A pass leaves the board as it
is and makes a move more, so the race goes on after it (`Position.isRace_afterPass`), and a player
between two calls follows it whatever its tree holds (`Player.InStep.advance`). So a turn of a race
asks nothing and adds a pass (`Match.Racing.turn`), and the match ends with the second pass in a
row, with the score that the race began with (`Match.race_passed_out`). All this needs room in the
count of moves: where the count starts again the board is not examined any more, and the players
search (`Match.search_where_count_starts_again`).
-/

namespace Goban

namespace Position

variable {pos : Position} {plies : List Move}

theorem toNat_moveCount_afterPass (hroom : pos.moveCount.toNat + 1 < 2 ^ 32) :
    pos.afterPass.moveCount.toNat = pos.moveCount.toNat + 1 := by
  show (pos.moveCount + 1).toNat = _
  rw [UInt32.toNat_add, UInt32.toNat_one, Nat.mod_eq_of_lt hroom]

/-- A race goes on after a pass that can be counted. -/
theorem isRace_afterPass (h : pos.isRace = true) (hroom : pos.moveCount.toNat + 1 < 2 ^ 32) :
    pos.afterPass.isRace = true := by
  obtain ⟨hlate, hsettled⟩ := Bool.and_eq_true_iff.mp h
  refine Bool.and_eq_true_iff.mpr ⟨decide_eq_true ?_, hsettled⟩
  rw [toNat_moveCount_afterPass hroom]
  exact Nat.le_succ_of_le (of_decide_eq_true hlate)

/-- The last move was a pass if one of those that came last is counted. -/
theorem EndsInPasses.getLast?_eq_pass_iff {count : Nat} (h : EndsInPasses count plies) :
    plies.getLast? = some .pass ↔ 0 < count := by
  rw [List.getLast?_eq_some_iff]
  constructor
  · rintro ⟨earlier, rfl⟩
    refine Nat.pos_of_ne_zero ?_
    rintro rfl
    exact h.2 (List.suffix_append earlier [.pass])
  · intro hcount
    obtain ⟨fewer, rfl⟩ := Nat.exists_eq_add_one_of_ne_zero hcount.ne'
    obtain ⟨earlier, rfl⟩ := h.1
    rw [List.replicate_succ', ← List.append_assoc]
    exact ⟨_, rfl⟩

end Position

namespace Player

variable {p : Player} {pos next : Position} {m : Move}

/-- Between two calls the player has a position at its root, but perhaps for the compensation, which
no move looks at. -/
def InStep (p : Player) (pos : Position) : Prop :=
  ∃ root, p.Awaits root [] ∧ { root with komi := pos.komi } = pos

theorem Called.inStep {first root : Position} {asked : List (List Position)}
    (h : Called first p asked) (hroot : p.position? = some root)
    (hstep : { root with komi := pos.komi } = pos) : p.InStep pos := by
  obtain ⟨line, sent, hcourse⟩ := h.course
  obtain ⟨root', -, hawaits⟩ := hcourse.kept.awaits
  obtain rfl : root = root' := Option.some.inj (hroot.symm.trans hawaits.known)
  exact ⟨root, hawaits, hstep⟩

/-- A player in step stays in step with every move that the rules accept. -/
theorem InStep.advance (h : p.InStep pos) (hplay : pos.play m = .ok next) :
    ∃ p', p.advance m = .ok p' ∧ p'.InStep next := by
  obtain ⟨root, hawaits, hstep⟩ := h
  rw [← hstep, Position.play_withKomi] at hplay
  cases hroot : root.play m with
  | error reason =>
    rw [hroot] at hplay
    cases hplay
  | ok below =>
    rw [hroot] at hplay
    cases hplay
    obtain ⟨p', hadvance, hawaits', -⟩ := hawaits.advance hroot
    exact ⟨p', hadvance, below, hawaits', rfl⟩

end Player

namespace Match

variable {start : Position} {g g' g'' : Game} {m m' : Match} {verbose : Bool}

/-! ## One turn -/

/-- A race in a game that goes on, with both players in step. -/
structure Racing (m : Match) : Prop where
  goes : m.game.isOver = false
  unfinished : m.game.position.isOver = false
  race : m.game.position.isRace = true
  players : ∀ color, (m.player color).InStep m.game.position

/-- The second game is the first one after a pass. -/
def AfterPass (g g' : Game) : Prop := ∃ comment, g' = g.moved .pass comment g.position.afterPass

theorem AfterPass.position_eq (h : AfterPass g g') : g'.position = g.position.afterPass := by
  obtain ⟨comment, rfl⟩ := h
  exact Game.position_moved _ _ _ _

theorem AfterPass.isOver_eq (h : AfterPass g g') (hgoes : g.isOver = false) :
    g'.isOver = g.position.afterPass.isOver := by
  obtain ⟨comment, rfl⟩ := h
  exact isOver_moved hgoes _ _ _

/-- The second match is the first one after a turn in which a player passed. -/
structure AfterTurn (m m' : Match) : Prop where
  game : AfterPass m.game m'.game
  players : ∀ color, (m.player color).advance .pass = .ok (m'.player color)

namespace Racing

theorem play_pass (h : Racing m) : m.game.position.play .pass = .ok m.game.position.afterPass := by
  rw [Position.play_pass, h.unfinished, if_neg Bool.false_ne_true]

theorem choose (h : Racing m) (p : Player) : choose m.game p = .done (.pass, p) := by
  unfold Match.choose
  rw [h.race]
  rfl

theorem withLog (h : Racing m) (log : Array String) : Racing { m with log } :=
  ⟨h.goes, h.unfinished, h.race, h.players⟩

theorem commit {p : Player} (h : Racing m) (hp : p = m.player m.mover) :
    ∃ m', m.commit .pass p = .ok m' ∧ AfterTurn m m' := by
  subst hp
  obtain ⟨mover, hmover, -⟩ := (h.players m.mover).advance h.play_pass
  obtain ⟨opponent, hopponent, -⟩ := (h.players m.mover.other).advance h.play_pass
  refine ⟨_, commit_move h.goes h.play_pass hmover hopponent, ⟨_, game_withPlayer _ _ _⟩, ?_⟩
  intro color
  by_cases hcolor : color = m.mover.other
  · rw [hcolor, player_withPlayer, hopponent]
  · rw [player_withPlayer_of_ne hcolor, Color.eq_other_of_ne hcolor, Color.other_other,
      player_withGame (m.withPlayer m.mover mover), player_withPlayer, hmover]

/-- A turn of a race asks nothing and passes, and both players follow. -/
theorem turn (h : Racing m) (verbose : Bool) :
    ∃ m', m.turn verbose = .done m' ∧ AfterTurn m m' := by
  unfold Match.turn
  simp only [h.choose]
  cases verbose with
  | false =>
    obtain ⟨m', hcommit, hafter⟩ := h.commit rfl
    refine ⟨m', ?_, hafter⟩
    show (Inquiry.ofExcept (m.commit .pass (m.player m.mover)) >>= _) = _
    rw [hcommit]
    rfl
  | true =>
    obtain ⟨m', hcommit, hafter⟩ :=
      (h.withLog (m.log.push (m.player m.mover).describe)).commit (player_withLog m _ m.mover).symm
    refine ⟨{ m' with log := m'.log.push (turnReport m'.game .pass (m'.player m.mover)) }, ?_,
      hafter.game, fun color => ?_⟩
    · show (Inquiry.ofExcept (Match.commit _ .pass (m.player m.mover)) >>= _) = _
      simp only [if_true]
      rw [hcommit]
      rfl
    · rw [player_withLog]
      exact hafter.players color

end Racing

/-! ## The whole race -/

/-- The second game is the first one after so many passes, which ended it with the score on the
board. -/
structure PassedOut (passes : Nat) (g g' : Game) : Prop where
  turns : ∃ added, g'.turns = g.turns ++ added ∧ added.map (·.move) = List.replicate passes .pass
  board : g'.position.board = g.position.board
  /-- Nothing else was written into the game. -/
  ended : g' = { g with
    position := g'.position
    turns := g'.turns
    ending := some .bothPassed
    result := g.position.score }

/-- A pass that ends the game ends the race. -/
theorem AfterPass.passedOut (h : AfterPass g g') (hover : g.position.afterPass.isOver = true) :
    PassedOut 1 g g' := by
  obtain ⟨comment, rfl⟩ := h
  refine ⟨⟨_, Game.turns_moved _ _ _ _, rfl⟩, ?_, ?_⟩
  · rw [Game.position_moved]
    rfl
  · unfold Game.moved
    simp only [hover, if_true]
    rfl

/-- A pass that does not end the game leaves one pass fewer to make. -/
theorem AfterPass.then_passedOut {passes : Nat} (h : AfterPass g g')
    (hgoes : g.position.afterPass.isOver = false) (hrest : PassedOut passes g' g'') :
    PassedOut (passes + 1) g g'' := by
  obtain ⟨comment, rfl⟩ := h
  obtain ⟨⟨added, hadded, hmoves⟩, hboard, hended⟩ := hrest
  rw [Game.turns_moved, List.append_assoc] at hadded
  rw [Game.position_moved] at hboard
  refine ⟨⟨_, hadded, ?_⟩, hboard, ?_⟩
  · rw [List.map_append, hmoves, List.replicate_succ]
    rfl
  · refine hended.trans ?_
    unfold Game.moved
    simp only [hgoes, Bool.false_eq_true, if_false]
    rfl

theorem playOn_of_isOver (hover : m.game.isOver = true)
    (reply : Color → List Position → List Evaluation) (verbose : Bool) (turns : Nat)
    (calls : Calls) : playOn reply verbose turns m calls = (calls, .ok m) := by
  cases turns <;> rw [playOn, if_pos hover]

/-- A turn that asks nothing is played without a call. -/
theorem playOn_of_turn (hgoes : m.game.isOver = false) (hturn : m.turn verbose = .done m')
    (reply : Color → List Position → List Evaluation) (turns : Nat) (calls : Calls) :
    playOn reply verbose (turns + 1) m calls = playOn reply verbose turns m' calls := by
  rw [playOn, hgoes, if_neg Bool.false_ne_true, hturn]
  rfl

/-- A match that comes to its end without a call after such a turn does so with one turn more. -/
theorem playOn_of_rest {left : Nat} (hgoes : m.game.isOver = false)
    (hturn : m.turn verbose = .done m') {m'' : Match} (hrest : ∀ reply turns calls, left ≤ turns →
      playOn reply verbose turns m' calls = (calls, .ok m'')) :
    ∀ reply turns calls, left + 1 ≤ turns →
      playOn reply verbose turns m calls = (calls, .ok m'') := by
  intro reply turns calls hturns
  obtain ⟨turns, rfl⟩ := Nat.exists_eq_add_of_le' hturns
  rw [← Nat.add_assoc, playOn_of_turn hgoes hturn]
  exact hrest reply _ calls (Nat.le_add_left left turns)

/-- A pass that does not end the game leaves a race if it can be counted. -/
theorem Racing.next (h : Racing m) (hafter : AfterTurn m m')
    (hgoes : m.game.position.afterPass.isOver = false)
    (hroom : m.game.position.moveCount.toNat + 1 < 2 ^ 32) : Racing m' := by
  refine ⟨(hafter.game.isOver_eq h.goes).trans hgoes, ?_, ?_, fun color => ?_⟩ <;>
    rw [hafter.game.position_eq]
  · exact hgoes
  · exact Position.isRace_afterPass h.race hroom
  · obtain ⟨p, hadvance, hp⟩ := (h.players color).advance h.play_pass
    rw [hafter.players color] at hadvance
    cases hadvance
    exact hp

/-- A race comes to its end by the passes that are left, and no model is asked. -/
theorem Racing.run (h : Racing m) {left : Nat} (hleft : m.game.position.passes + left = 2)
    (hroom : m.game.position.moveCount.toNat + left < 2 ^ 32) (verbose : Bool) :
    ∃ m', PassedOut left m.game m'.game ∧ ∀ reply turns calls,
      left ≤ turns → playOn reply verbose turns m calls = (calls, .ok m') := by
  induction left generalizing m with
  | zero =>
    have hover : m.game.position.isOver = true := decide_eq_true (Nat.le_of_eq hleft.symm)
    rw [h.unfinished] at hover
    cases hover
  | succ left ih =>
    obtain ⟨m₁, hturn, hafter⟩ := h.turn verbose
    cases hover : m.game.position.afterPass.isOver with
    | true =>
      obtain rfl : left = 0 := by
        have hmany : 2 ≤ m.game.position.passes + 1 := of_decide_eq_true hover
        omega
      have hended : m₁.game.isOver = true := (hafter.game.isOver_eq h.goes).trans hover
      exact ⟨m₁, hafter.game.passedOut hover, playOn_of_rest h.goes hturn
        fun reply turns calls _ => playOn_of_isOver hended reply verbose turns calls⟩
    | false =>
      have hone : m.game.position.moveCount.toNat + 1 < 2 ^ 32 := by omega
      have hleft' : m₁.game.position.passes + left = 2 := by
        rw [hafter.game.position_eq]
        show m.game.position.passes + 1 + left = 2
        omega
      have hroom' : m₁.game.position.moveCount.toNat + left < 2 ^ 32 := by
        rw [hafter.game.position_eq, Position.toNat_moveCount_afterPass hone]
        omega
      obtain ⟨m', hpassed, hrest⟩ := ih (h.next hafter hover hone) hleft' hroom'
      exact ⟨m', hafter.game.then_passedOut hover hpassed, playOn_of_rest h.goes hturn hrest⟩

/-- The number of passes that end a game: one if the last move was a pass, else two. -/
def passesLeft (start : Position) (g : Game) : Nat :=
  if (plies start g).getLast? = some .pass then 1 else 2

/-- The passes that came last and those that are left make two. -/
theorem passes_add_passesLeft (h : Game.Told start g) (hgoes : g.isOver = false) :
    g.position.passes + passesLeft start g = 2 := by
  have hends : Position.EndsInPasses g.position.passes (plies start g) :=
    Position.endsInPasses_playAll h.replay
  have hfew : ¬ 2 ≤ g.position.passes := of_decide_eq_false (h.goes hgoes)
  unfold passesLeft
  split
  · rename_i hlast
    have hsome := hends.getLast?_eq_pass_iff.mp hlast
    omega
  · rename_i hlast
    have hnone : ¬ 0 < g.position.passes := mt hends.getLast?_eq_pass_iff.mpr hlast
    omega

/-- Whatever a game was told, if it goes on and no move can change its outcome any more, then any
two players in step with it end it by passes alone, one if the last move was a pass and else two, if
so many can be counted. No model is asked, and the result is the score of the position in which the
race began. -/
theorem race_passed_out {blackName whiteName : String} {options : GameOptions}
    {entries : List Game.Entry} (hstart : start.isOver = false)
    (hgame : m.game = entries.foldl .enter (.fromPosition blackName whiteName options start))
    (hgoes : m.game.isOver = false) (hrace : m.game.position.isRace = true)
    (hroom : m.game.position.moveCount.toNat + passesLeft start m.game < 2 ^ 32)
    (hplayers : ∀ color, ∃ first root asked, Player.Called first (m.player color) asked ∧
      (m.player color).position? = some root ∧
        { root with komi := m.game.position.komi } = m.game.position) (verbose : Bool) :
    ∃ m', PassedOut (passesLeft start m.game) m.game m'.game ∧ ∀ reply turns calls,
      passesLeft start m.game ≤ turns → playOn reply verbose turns m calls = (calls, .ok m') := by
  have htold : Game.Told start m.game := by
    rw [hgame]
    exact (Game.Told.fromPosition hstart _ _ _).enters entries
  have hracing : Racing m := by
    refine ⟨hgoes, htold.goes hgoes, hrace, fun color => ?_⟩
    obtain ⟨first, root, asked, hcalled, hroot, hstep⟩ := hplayers color
    exact hcalled.inStep hroot hstep
  exact hracing.run (passes_add_passesLeft htold hgoes) hroom verbose

/-- A match of two new players that starts from a position. -/
theorem exists_new_match (start : Position) : ∃ m : Match,
    m.game = .fromPosition "black" "white" .usual start ∧ ∀ color,
      Player.new "uniform" .usual Noise.dirichlet start = .ok (m.player color) := by
  obtain ⟨p, hnew⟩ := Player.exists_new "uniform" .usual Noise.dirichlet start (by decide)
  refine ⟨⟨.fromPosition "black" "white" .usual start, p, p, #[]⟩, rfl, fun color => ?_⟩
  cases color <;> exact hnew

/-- A black chain in the corner, and nothing else on the board, after so many moves. -/
def cornerRace (moveCount : UInt32) : Position :=
  .ofBoard (Board.blank.placeAll .black Position.corner) .white moveCount (.ofInt 7)

theorem isRace_cornerRace {moveCount : UInt32}
    (hlate : Position.earliestRace ≤ moveCount.toNat) : (cornerRace moveCount).isRace = true :=
  Bool.and_eq_true_iff.mpr ⟨decide_eq_true hlate, List.all_eq_true.mpr
    fun p _ => Bool.or_eq_true_iff.mpr (.inl (Position.has_settled_corner p))⟩

/-- Two new players pass twice. -/
theorem race_passed_out_in_corner : ∃ m m',
    m.game = .fromPosition "black" "white" .usual (cornerRace 30) ∧
      (cornerRace 30).isOver = false ∧ (cornerRace 30).isRace = true ∧
        (∀ color, (m.player color).position? = some (cornerRace 30)) ∧
          PassedOut 2 m.game m'.game ∧
            ∀ reply calls, playOn reply true 2 m calls = (calls, .ok m') := by
  obtain ⟨m, hgame, hnew⟩ := exists_new_match (cornerRace 30)
  have hrace : (cornerRace 30).isRace = true := isRace_cornerRace (by decide)
  have hroot : ∀ color, (m.player color).position? = some (cornerRace 30) :=
    fun color => (Player.Awaits.new (hnew color)).known
  have htold : m.game = ([] : List Game.Entry).foldl .enter
      (.fromPosition "black" "white" .usual (cornerRace 30)) := hgame
  have hleft : passesLeft (cornerRace 30) m.game = 2 := by
    rw [hgame]
    rfl
  obtain ⟨m', hpassed, hplays⟩ := race_passed_out rfl htold (by rw [hgame]; rfl)
    (by rw [hgame]; exact hrace) (by rw [hleft, hgame]; decide)
    (fun color => ⟨_, _, _, .new (hnew color), hroot color, by rw [hgame]; rfl⟩) true
  rw [hleft] at hpassed hplays
  exact ⟨m, m', hgame, rfl, hrace, hroot, hpassed, fun reply calls => hplays reply 2 calls le_rfl⟩

/-! ## Where the count of moves starts again -/

end Match

namespace Player

variable {p p' : Player} {g : Game} {pos next : Position} {m : Move}

theorem tree_of_new {modelName : String} {options : PlayerOptions} {noise : NoiseSource}
    (h : new modelName options noise pos = .ok p) : p.tree = .root pos ∧ p.options = options := by
  unfold Player.new at h
  split at h
  · cases h
    exact ⟨rfl, rfl⟩
  · cases h

/-- A new tree is followed by a new tree. -/
theorem tree_advance_of_root (htree : p.tree = .root pos) (hplay : pos.play m = .ok next)
    (hadvance : p.advance m = .ok p') : p'.tree = .root next ∧ p'.options = p.options := by
  have hnone : p.tree.branches.find? (·.1 == m) = none := by
    rw [htree]
    rfl
  have hroot : p.position? = some pos := by
    rw [position?, htree]
    rfl
  rw [advance_of_none hnone hroot, hplay] at hadvance
  cases hadvance
  exact ⟨rfl, rfl⟩

/-- A search from a root without branches asks about it. -/
theorem search_of_root (htree : p.tree = .root pos) (hover : pos.isOver = false)
    (hcount : 0 < p.options.virtualLosses) : ∃ next, p.search = .ask [pos] next := by
  have hgather : p.tree.gather p.options p.options.virtualLosses [] =
      .ok ([⟨[], pos⟩], p.tree.along .addLoss []) := by
    rw [htree]
    exact Tree.gather_of_unexpanded_top rfl rfl hover hcount
  unfold search
  rw [hgather]
  exact ⟨_, rfl⟩

theorem suggest_of_root (htree : p.tree = .root pos) (hover : pos.isOver = false)
    (hcount : 0 < p.options.virtualLosses) (hstep : g.position.agrees pos = true)
    (readouts : Nat) : ∃ next, p.suggest g readouts = .ask [pos] next := by
  obtain ⟨next, hsearch⟩ := search_of_root htree hover hcount
  have hknown : (p.position?.any g.position.agrees) = true := by
    rw [position?, htree]
    exact hstep
  rw [suggest_eq p hknown, htree, hsearch]
  exact ⟨_, rfl⟩

end Player

namespace Match

variable {m m' : Match} {verbose : Bool}

/-- A turn that is no race begins with the search of the side to play. -/
theorem turn_of_root {pos : Position} (hrace : m.game.position.isRace = false)
    (hover : pos.isOver = false) (hstep : m.game.position.agrees pos = true)
    (htree : (m.player m.mover).tree = .root pos)
    (hcount : 0 < (m.player m.mover).options.virtualLosses) :
    ∃ next, m.turn verbose = .ask [pos] next := by
  obtain ⟨next, hsuggest⟩ := Player.suggest_of_root htree hover hcount hstep
    (m.player m.mover).options.readouts
  have hchoose : choose m.game (m.player m.mover) = .ask [pos] next := by
    rw [choose, hrace, if_neg Bool.false_ne_true, hsuggest]
  unfold turn
  simp only [hchoose]
  exact ⟨_, rfl⟩

theorem playOn_one_of_ask {positions : List Position} {next : List Evaluation → Inquiry Match}
    (hgoes : m.game.isOver = false) (hturn : m.turn verbose = .ask positions next)
    (reply : Color → List Position → List Evaluation) : (playOn reply verbose 1 m []).1 ≠ [] := by
  rw [playOn, hgoes, if_neg Bool.false_ne_true, hturn, Inquiry.answer]
  cases (next (reply m.mover positions)).answer (reply m.mover) with
  | mk asked outcome =>
    have hcalls : asked.foldl (fun calls positions => (m.mover, positions) :: calls)
        [(m.mover, positions)] ≠ [] := by
      simp
    cases outcome with
    | ok m' => exact hcalls
    | error f => exact hcalls

/-- After the pass that ends the count the board is not examined, and the next player searches. -/
theorem search_where_count_starts_again : ∃ m : Match,
    m.game = .fromPosition "black" "white" .usual (cornerRace 4294967295) ∧
      (cornerRace 4294967295).isOver = false ∧ (cornerRace 4294967295).isRace = true ∧
        (∀ color, Player.Called (cornerRace 4294967295) (m.player color) [] ∧
          (m.player color).position? = some (cornerRace 4294967295)) ∧
            ∀ reply, (playOn reply false 2 m []).1 ≠ [] := by
  obtain ⟨m, hgame, hnew⟩ := exists_new_match (cornerRace 4294967295)
  have hawaits color := Player.Awaits.new (hnew color)
  have hposition : m.game.position = cornerRace 4294967295 := by rw [hgame]; rfl
  have hracing : Racing m := by
    refine ⟨by rw [hgame]; rfl, by rw [hposition]; rfl, ?_, fun color => ?_⟩ <;> rw [hposition]
    · exact isRace_cornerRace (by decide)
    · exact ⟨_, hawaits color, rfl⟩
  refine ⟨m, hgame, rfl, isRace_cornerRace (by decide),
    fun color => ⟨.new (hnew color), (hawaits color).known⟩, fun reply => ?_⟩
  obtain ⟨m₁, hturn, hafter⟩ := hracing.turn false
  have hover : (cornerRace 4294967295).afterPass.isOver = false := rfl
  have hposition₁ : m₁.game.position = (cornerRace 4294967295).afterPass := by
    rw [hafter.game.position_eq, hposition]
  have hgoes₁ : m₁.game.isOver = false := by
    rw [hafter.game.isOver_eq hracing.goes, hposition]
    rfl
  have hrace₁ : m₁.game.position.isRace = false := by
    rw [hposition₁]
    exact Bool.and_eq_false_iff.mpr (.inl (by decide))
  have hstep₁ : m₁.game.position.agrees (cornerRace 4294967295).afterPass = true := by
    rw [hposition₁]
    exact Position.agrees_self (by decide)
  obtain ⟨htree, hoptions⟩ := Player.tree_of_new (hnew m₁.mover)
  obtain ⟨htree₁, hoptions₁⟩ :=
    Player.tree_advance_of_root htree (Position.play_pass _) (hafter.players m₁.mover)
  rw [hoptions] at hoptions₁
  obtain ⟨next, hask⟩ := turn_of_root hrace₁ hover hstep₁ htree₁ (by rw [hoptions₁]; decide)
  rw [playOn_of_turn hracing.goes hturn]
  exact playOn_one_of_ask hgoes₁ hask reply

end Match

end Goban
