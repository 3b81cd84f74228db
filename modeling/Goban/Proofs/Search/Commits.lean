import Goban.Proofs.Game.Faithful
import Goban.Proofs.Search.Accounts

/-!
# Moves are all or nothing

A player whose root is the position of the game makes a move in the game before it moves its root,
and nothing takes the game back if the root cannot follow. It always can: positions that agree allow
the same moves and lead to positions that agree again (`Position.agrees_play`), and a root between
two calls follows every move that the rules allow, down a branch or to a new tree
(`Player.Awaits.followed`). So a call that ends with a setback has left everything as it was
(`Player.Called.commits`).
-/

namespace Goban

namespace Player

variable {start root next : Position} {p p' : Player} {g g' : Game} {asked : List (List Position)}
  {m : Move}

/-- How it ends that a player makes a move in a game, with the position at its root. -/
inductive PlayEnds (p : Player) (g : Game) (root : Position) (m : Move) :
    EStateM.Result Setback (Game × Player) Unit → Prop where
  /-- A move that the game refuses changes neither the game nor the player. -/
  | refused {reason : IllegalMove} (hadd : g.add m p.comment = .error reason) :
    PlayEnds p g root m (.error (.refused reason) (g, p))
  /-- A resignation ends the game, and the player stays as it is. -/
  | resigned {g' : Game} (hresign : m = .resign) (hgame : g' = g.resigned)
      (hover : g'.isOver = true) : PlayEnds p g root m (.ok () (g', p))
  /-- Any other move is recorded once, and then the root agrees with the game again. -/
  | made {g' : Game} {p' : Player} {next : Position} (hmove : m ≠ .resign)
      (hplay : g.position.play m = .ok g'.position)
      (hturns : g'.turns = g.turns ++ [⟨g.position.toPlay, m, p.comment⟩])
      (hroot : root.play m = .ok next) (hnext : p'.position? = some next)
      (hagrees : g'.position.agrees next = true) : PlayEnds p g root m (.ok () (g', p'))

/-- How it ends that a player follows a move of its opponent, with the position at its root. -/
inductive FollowEnds (p : Player) (root : Position) (m : Move) :
    EStateM.Result Setback Player Unit → Prop where
  /-- What the rules refuse at the root is refused for the same reason, and the player stays as it
  is. -/
  | refused {reason : IllegalMove} (hplay : root.play m = .error reason) :
    FollowEnds p root m (.error (.refused reason) p)
  | moved {p' : Player} {next : Position} (hplay : root.play m = .ok next)
      (hnext : p'.position? = some next) : FollowEnds p root m (.ok () p')

/-- A root between two calls follows every move that the rules allow. -/
theorem Awaits.followed (h : p.Awaits root []) (hplay : root.play m = .ok next) :
    ∃ p', (moveRoot m).run p = .ok () p' ∧ p'.position? = some next := by
  obtain ⟨p', hadvance, hawaits, -⟩ := h.advance hplay
  exact ⟨p', Call.outcome_eq_ok_iff.mp hadvance, hawaits.known⟩

/-- The root can follow each move that the game has taken, so the call does not stop halfway. -/
theorem Awaits.playEnds (h : p.Awaits root []) (hstep : g.position.agrees root = true) (m : Move) :
    p.PlayEnds g root m ((playMove m).run (g, p)) := by
  rw [run_playMove]
  cases hadd : g.add m p.comment with
  | error reason => exact .refused hadd
  | ok g' =>
    obtain ⟨-, ⟨hresign, hgame⟩ | ⟨after, hplay, hgame⟩⟩ := Game.add_eq_ok hadd
    · simp only [if_pos hresign]
      exact .resigned hresign hgame (hgame ▸ rfl)
    · -- Here the game has changed already, so the root must not refuse.
      obtain ⟨next, hroot, hagrees⟩ := Position.agrees_play hstep hplay
      obtain ⟨p', hrun, hnext⟩ := h.followed hroot
      have hafter : g'.position = after := by rw [hgame, Game.position_moved]
      have hmove : m ≠ .resign := by
        rintro rfl
        cases hplay
      simp only [if_neg hmove, hrun]
      refine .made hmove ?_ ?_ hroot hnext ?_
      · rw [hafter, hplay]
      · rw [hgame, Game.turns_moved]
      · rw [hafter]
        exact hagrees

theorem Awaits.followEnds (h : p.Awaits root []) (m : Move) :
    p.FollowEnds root m ((followMove m).run p) := by
  unfold followMove
  split
  · rename_i hresign
    subst hresign
    exact .refused rfl
  · cases hplay : root.play m with
    | ok next =>
      obtain ⟨p', hrun, hnext⟩ := h.followed hplay
      rw [hrun]
      exact .moved hplay hnext
    | error reason =>
      rw [h.run_moveRoot_refused hplay]
      exact .refused hplay

/-- Whatever calls were made before, a move is made in the game and at the root or in neither, and a
move of the opponent is followed or changes nothing. -/
theorem Called.commits (h : Called start p asked) (hroot : p.position? = some root)
    (hstep : g.position.agrees root = true) (m : Move) :
    p.PlayEnds g root m ((playMove m).run (g, p)) ∧
      p.FollowEnds root m ((followMove m).run p) := by
  obtain ⟨line, sent, hcourse⟩ := h.course
  obtain ⟨root', -, hawaits⟩ := hcourse.kept.awaits
  obtain rfl : root = root' := Option.some.inj (hroot.symm.trans hawaits.known)
  exact ⟨hawaits.playEnds hstep m, hawaits.followEnds m⟩

/-- A new player puts the first stone of a game. -/
theorem commits_first_stone : ∃ p g' p',
    Player.new "uniform" .usual Noise.dirichlet (.initial GameOptions.usualKomi) = .ok p ∧
      (playMove (.stone 40)).run (.new "black" "white" .usual, p) = .ok () (g', p') ∧
        g'.turns = [⟨.black, .stone 40, "N: 0, Q: 0.0000"⟩] ∧
          (p'.position?.any g'.position.agrees) = true := by
  obtain ⟨p, hnew⟩ := Player.exists_new "uniform" .usual Noise.dirichlet
    (.initial GameOptions.usualKomi) (by decide)
  have hends := ((Called.new hnew).commits (g := .new "black" "white" .usual) (Awaits.new hnew).known
    (by decide) (.stone 40)).1
  generalize hrun : (playMove (.stone 40)).run (.new "black" "white" .usual, p) = result at hends
  cases hends with
  | refused hadd =>
    have hlegal : (Position.initial GameOptions.usualKomi).isLegal (.stone 40) = true := by decide
    obtain ⟨g', htaken⟩ := (Game.add_isOk_iff (g := .new "black" "white" .usual) rfl (.stone 40)
      p.comment).mpr (.inr (Position.exists_play_of_isLegal hlegal))
    rw [hadd] at htaken
    cases htaken
  | resigned hresign => cases hresign
  | @made g' p' next hmove hplay hturns hroot hnext hagrees =>
    refine ⟨p, g', p', hnew, hrun, ?_, ?_⟩
    · cases hnew
      exact hturns
    · rw [hnext]
      exact hagrees

end Player

end Goban
