import Goban.Match
import Goban.Proofs.Search.Steady

/-!
# Names

A player carries the name of its model only to be told from others. No search, no choice and no move
depends on it (`Player.suggest_unnamed`, `Player.advance_unnamed`), and none depends on the names in
the game. So a turn of a match is the same under all names, whether it is reported or not
(`Match.turn_bare`); names are left in the texts of its faults.
-/

namespace Goban

namespace Player

/-- The player without the name of its model. -/
def unnamed (p : Player) : Player := { p with modelName := "" }

section Unnamed

variable (p : Player)

@[simp] theorem options_unnamed : p.unnamed.options = p.options := rfl

@[simp] theorem tree_unnamed : p.unnamed.tree = p.tree := rfl

@[simp] theorem visits_unnamed : p.unnamed.visits = p.visits := rfl

@[simp] theorem position?_unnamed : p.unnamed.position? = p.position? := rfl

@[simp] theorem outlook_unnamed : p.unnamed.outlook = p.outlook := rfl

@[simp] theorem favourite?_unnamed : p.unnamed.favourite? = p.favourite? := rfl

theorem mixNoise_unnamed : p.unnamed.mixNoise = p.mixNoise.unnamed := by
  obtain ⟨modelName, options, noise, noiseState, ⟨n, bs⟩, inferences⟩ := p
  unfold mixNoise unnamed
  simp only
  split <;> rfl

theorem absorb_unnamed (leaf : Tree.Leaf) (e : Evaluation) :
    p.unnamed.absorb leaf e = unnamed <$> p.absorb leaf e := by
  unfold absorb
  rw [tree_unnamed]
  cases p.tree.absorb leaf e with
  | error fault => rfl
  | ok tree =>
    simp only [bind, Except.bind]
    split
    · exact congrArg Except.ok (mixNoise_unnamed { p with tree })
    · rfl

theorem absorbAll_unnamed (leaves : List Tree.Leaf) (es : List Evaluation) :
    p.unnamed.absorbAll leaves es = unnamed <$> p.absorbAll leaves es := by
  induction leaves generalizing p es with
  | nil => rfl
  | cons leaf leaves ih =>
    cases es with
    | nil => rfl
    | cons e es =>
      rw [absorbAll, absorbAll, absorb_unnamed]
      cases p.absorb leaf e with
      | error fault => rfl
      | ok p => exact ih p es

theorem search_unnamed : p.unnamed.search = unnamed <$> p.search := by
  unfold search
  rw [tree_unnamed, options_unnamed]
  cases p.tree.gather p.options p.options.virtualLosses [] with
  | error fault => rfl
  | ok gathered =>
    obtain ⟨leaves, tree⟩ := gathered
    change (pure (leaves, tree) >>= _) = unnamed <$> (pure (leaves, tree) >>= _)
    rw [pure_bind, pure_bind]
    simp only
    split
    · rfl
    · refine congrArg (Inquiry.ask _) (funext fun answers => ?_)
      change (if _ then _ else _ : Inquiry Player) = Inquiry.bind (if _ then _ else _) _
      split
      · exact (congrArg Inquiry.ofExcept
          (absorbAll_unnamed { p with tree, inferences := p.inferences + leaves.length } leaves
            answers)).trans (Inquiry.ofExcept_map _ _)
      · rfl

theorem searchUntil_unnamed (target steps : Nat) :
    searchUntil target steps p.unnamed = unnamed <$> searchUntil target steps p := by
  induction steps generalizing p with
  | zero => rfl
  | succ steps ih =>
    rw [searchUntil, searchUntil, visits_unnamed]
    split
    · rw [search_unnamed, map_bind, bind_map_left]
      exact congrArg _ (funext ih)
    · rfl

theorem conclude_unnamed {g g' : Game} (hoptions : g'.options = g.options) :
    conclude g' p.unnamed = Prod.map id unnamed <$> conclude g p := by
  unfold conclude
  rw [hoptions, outlook_unnamed, favourite?_unnamed]
  split
  · rfl
  · cases p.favourite? <;> rfl

/-- A player reads nothing of a game but its position and its options. -/
theorem suggest_unnamed {g g' : Game} (hposition : g'.position = g.position)
    (hoptions : g'.options = g.options) (readouts : Nat) :
    p.unnamed.suggest g' readouts = Prod.map id unnamed <$> p.suggest g readouts := by
  by_cases hstep : (p.position?.any g.position.agrees) = true
  · have hfirst : (if p.unnamed.tree.top.expanded then pure p.unnamed else p.unnamed.search) =
        unnamed <$> (if p.tree.top.expanded then pure p else p.search) := by
      rw [search_unnamed, tree_unnamed]
      split <;> rfl
    rw [suggest_eq p hstep, suggest_eq p.unnamed (hposition ▸ hstep), hfirst, bind_map_left,
      map_bind]
    refine congrArg _ (funext fun p => ?_)
    rw [visits_unnamed, searchUntil_unnamed, bind_map_left, map_bind]
    exact congrArg _ (funext fun p => conclude_unnamed p hoptions)
  · unfold suggest
    rw [hposition, position?_unnamed, (Bool.not_eq_true _).mp hstep]
    rfl

theorem descend_unnamed (below : Tree) (position : Position) :
    p.unnamed.descend below position = (p.descend below position).unnamed := by
  unfold descend
  split
  · exact mixNoise_unnamed { p with tree := (below.know position).transplant }
  · rfl

theorem advance_unnamed (m : Move) : p.unnamed.advance m = unnamed <$> p.advance m := by
  have hafter : ∀ below, p.unnamed.positionAfter m below = p.positionAfter m below := fun _ => rfl
  have hroot : p.unnamed.rootPosition = p.rootPosition := rfl
  unfold advance Call.outcome
  rw [run_moveRoot, run_moveRoot, tree_unnamed, hroot]
  cases p.tree.branches.find? (·.1 == m) with
  | none =>
    cases p.rootPosition with
    | error fault => rfl
    | ok root =>
      simp only
      cases root.play m <;> rfl
  | some branch =>
    simp only [hafter]
    cases p.positionAfter m branch.2 with
    | error fault => rfl
    | ok position => exact congrArg Except.ok (descend_unnamed p branch.2 position)

end Unnamed

end Player

/-- The game without the names of its players. -/
def Game.unnamed (g : Game) : Game := { g with blackName := "", whiteName := "" }

theorem Game.winner_unnamed (g : Game) : g.unnamed.winner = g.winner := rfl

theorem Game.ending_unnamed (g : Game) : g.unnamed.ending = g.ending := rfl

namespace Match

/-- The match without names and reports. -/
def bare (m : Match) : Match where
  game := m.game.unnamed
  black := m.black.unnamed
  white := m.white.unnamed
  log := #[]

variable {m m' : Match}

theorem player_bare (m : Match) (color : Color) : m.bare.player color = (m.player color).unnamed := by
  cases color <;> rfl

theorem bare_withPlayer (m : Match) (color : Color) (p : Player) :
    (m.withPlayer color p).bare = m.bare.withPlayer color p.unnamed := by
  cases color <;> rfl

theorem add_unnamed (g : Game) (move : Move) (comment : String) :
    g.unnamed.add move comment = Game.unnamed <$> g.add move comment := by
  rw [Game.add_eq, Game.add_eq]
  show (if g.isOver = true then _ else _) = _
  split
  · rfl
  · split
    · rfl
    · show (g.position.play move).map _ = Game.unnamed <$> (g.position.play move).map _
      cases g.position.play move with
      | error e => rfl
      | ok position =>
        simp only [Except.map, Game.moved]
        refine congrArg Except.ok ?_
        split <;> rfl

theorem choose_bare (m : Match) (color : Color) : choose m.bare.game (m.bare.player color) =
    Prod.map id Player.unnamed <$> choose m.game (m.player color) := by
  rw [player_bare]
  unfold choose
  show (if m.game.position.isRace = true then _ else _) = _
  split
  · rfl
  · exact Player.suggest_unnamed _ rfl rfl _

/-- The match after the mover has made a move that leads to a game. -/
def made (m : Match) (game : Game) (p : Player) : Match := { m.withPlayer m.mover p with game }

theorem bare_made (m : Match) (game : Game) (p : Player) :
    (m.made game p).bare = m.bare.made game.unnamed p.unnamed := by
  unfold made
  show ({ (m.withPlayer m.mover p).bare with game := game.unnamed } : Match) = _
  rw [bare_withPlayer]
  rfl

/-- The players after a move, if the opponent can follow it. -/
theorem commit_eq (m : Match) (move : Move) (p : Player) : (m.commit move p).toOption = do
    let game ← (m.game.add move p.comment).toOption
    if move = .resign then return m.made game p
    let p ← (p.advance move).toOption
    let opponent ← ((m.made game p).player m.mover.other |>.advance move).toOption
    return (m.made game p).withPlayer m.mover.other opponent := by
  unfold commit
  rw [Player.play_eq]
  cases m.game.add move p.comment with
  | error e => rfl
  | ok game =>
    by_cases hresign : move = .resign
    · subst hresign
      rfl
    · simp only [if_neg hresign]
      cases p.advance move with
      | error e => rfl
      | ok p =>
        simp only [Player.follow_eq, if_neg hresign]
        change _ = (((m.made game p).player m.mover.other).advance move).toOption >>= _
        unfold made
        cases ({ m.withPlayer m.mover p with game }.player m.mover.other).advance move <;> rfl

theorem toOption_map {ε α β : Type} (f : α → β) (e : Except ε α) :
    (f <$> e).toOption = f <$> e.toOption := by
  cases e <;> rfl

/-- What becomes of a move does not depend on names. -/
theorem commit_bare (m : Match) (move : Move) (p : Player) :
    (m.bare.commit move p.unnamed).toOption = bare <$> (m.commit move p).toOption := by
  rw [commit_eq, commit_eq]
  have hadd : m.bare.game.add move p.unnamed.comment = Game.unnamed <$> m.game.add move p.comment :=
    add_unnamed m.game move p.comment
  rw [hadd, toOption_map, bind_map_left, map_bind]
  refine congrArg _ (funext fun game => ?_)
  by_cases hresign : move = .resign
  · simp only [if_pos hresign]
    exact congrArg some (bare_made m game p).symm
  · simp only [if_neg hresign]
    change (p.unnamed.advance move).toOption >>= _ = bare <$> ((p.advance move).toOption >>= _)
    rw [Player.advance_unnamed, toOption_map, bind_map_left, map_bind]
    refine congrArg _ (funext fun p => ?_)
    rw [← bare_made, player_bare, Player.advance_unnamed, toOption_map, bind_map_left, map_bind]
    refine congrArg _ (funext fun opponent => ?_)
    exact congrArg some (bare_withPlayer _ _ _).symm

/-- A turn does not depend on names, nor on whether it is reported. -/
theorem turn_bare (reply : List Position → List Evaluation) (verbose : Bool) (m : Match) :
    ((m.bare.turn false).outcome reply).toOption =
      bare <$> ((m.turn verbose).outcome reply).toOption := by
  have hchoose : (choose m.bare.game (m.bare.player m.bare.mover)).outcome reply =
      Prod.map id Player.unnamed <$> (choose m.game (m.player m.mover)).outcome reply := by
    rw [← Inquiry.outcome_map, ← choose_bare]
    rfl
  unfold turn
  rw [Inquiry.outcome_bind, Inquiry.outcome_bind, hchoose]
  cases (choose m.game (m.player m.mover)).outcome reply with
  | error fault => rfl
  | ok choice =>
    obtain ⟨move, p⟩ := choice
    have hcommit : ∀ log : Array String, (m.bare.commit move p.unnamed).toOption =
        bare <$> ({ m with log }.commit move p).toOption := fun log =>
      commit_bare { m with log } move p
    cases verbose with
    | false =>
      change ((Inquiry.ofExcept (m.bare.commit move p.unnamed) >>= pure).outcome reply).toOption =
        bare <$> ((Inquiry.ofExcept (m.commit move p) >>= pure).outcome reply).toOption
      rw [bind_pure, bind_pure, Inquiry.outcome_ofExcept, Inquiry.outcome_ofExcept]
      exact hcommit m.log
    | true =>
      change ((Inquiry.ofExcept (m.bare.commit move p.unnamed) >>= pure).outcome reply).toOption =
        bare <$> ((Inquiry.ofExcept ({ m with log := m.log.push p.describe }.commit move p) >>=
          fun m' => pure { m' with
            log := m'.log.push (turnReport m'.game move (m'.player m.mover)) }).outcome
              reply).toOption
      rw [bind_pure, Inquiry.outcome_bind, Inquiry.outcome_ofExcept, Inquiry.outcome_ofExcept,
        hcommit (m.log.push p.describe)]
      cases ({ m with log := m.log.push p.describe }.commit move p) <;> rfl

end Match

end Goban
