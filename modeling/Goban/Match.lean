import Goban.Position.Diagram
import Goban.Search.Player

/-!
# Matches

A match is a game with its two players. In each turn the player whose turn it is suggests a move,
makes it in the game, and the opponent follows. Once no move can change the outcome both sides pass
without a search.
-/

namespace Goban

/-- A game between two players, and what was reported of it. -/
structure Match where
  game : Game
  black : Player
  white : Player
  log : Array String

namespace Match

/-- The player of a color. -/
def player (m : Match) : Color → Player
  | .black => m.black
  | .white => m.white

/-- The match with another state of the player of a color. -/
def withPlayer (m : Match) (color : Color) (p : Player) : Match :=
  match color with
  | .black => { m with black := p }
  | .white => { m with white := p }

@[simp] theorem player_withPlayer (m : Match) (color : Color) (p : Player) :
    (m.withPlayer color p).player color = p := by
  cases color <;> rfl

theorem player_withPlayer_of_ne {color color' : Color} (h : color' ≠ color) (m : Match)
    (p : Player) : (m.withPlayer color p).player color' = m.player color' := by
  cases color <;> cases color' <;> first | rfl | exact absurd rfl h

@[simp] theorem game_withPlayer (m : Match) (color : Color) (p : Player) :
    (m.withPlayer color p).game = m.game := by
  cases color <;> rfl

theorem player_withGame (m : Match) (g : Game) (color : Color) :
    { m with game := g }.player color = m.player color := by
  cases color <;> rfl

/-- Reports say nothing of the players. -/
theorem player_withLog (m : Match) (log : Array String) (color : Color) :
    { m with log }.player color = m.player color := by
  cases color <;> rfl

/-- The color whose turn it is. -/
def mover (m : Match) : Color := m.game.position.toPlay

/-- The move that a player chooses: a pass if the outcome is settled, else what it suggests. -/
def choose (g : Game) (p : Player) : Inquiry (Move × Player) :=
  if g.position.isRace then return (.pass, p) else p.suggest g p.options.readouts

/-- What is reported of a move. -/
def turnReport (g : Game) (move : Move) (p : Player) : String :=
  s!"{g.turns.length}: {move.vertex} by {p.modelName}\nQ: {p.mean.fixed 4}\n{g.position.diagram}"

/-- Makes a chosen move: the player makes it in the game, and the opponent follows. -/
def commit (m : Match) (move : Move) (p : Player) : Except Fault Match :=
  let color := m.mover
  match p.play m.game move with
  | (_, .error setback) =>
    .error (setback.fault fun e => .refusedMove p.modelName move.vertex e.message)
  | (game, .ok p) =>
    let m := { m.withPlayer color p with game }
    if move = .resign then .ok m
    else
      let opponent := m.player color.other
      match opponent.follow move with
      | .error setback =>
        .error (setback.fault fun e => .lostOpponent opponent.modelName move.vertex e.message)
      | .ok opponent => .ok (m.withPlayer color.other opponent)

/-- One turn of the match, with a report if it is wanted. -/
def turn (verbose : Bool) (m : Match) : Inquiry Match := do
  let color := m.mover
  let (move, p) ← choose m.game (m.player color)
  let m := if verbose then { m with log := m.log.push p.describe } else m
  let m ← Inquiry.ofExcept (m.commit move p)
  return if verbose then { m with log := m.log.push (turnReport m.game move (m.player color)) }
    else m

/-- What the models were asked in a match: the color of the player and the positions of each call,
the latest call first. -/
abbrev Calls := List (Color × List Position)

/-- Plays turns until the game is over, with the models of both sides at hand. -/
def playOn (reply : Color → List Position → List Evaluation) (verbose : Bool) :
    (turns : Nat) → Match → Calls → Calls × Except Fault Match
  | 0, m, calls => (calls, if m.game.isOver then .ok m else .error .outOfSteps)
  | turns + 1, m, calls =>
    if m.game.isOver then (calls, .ok m)
    else
      let (asked, outcome) := (m.turn verbose).answer (reply m.mover)
      let calls := asked.foldl (fun calls positions => (m.mover, positions) :: calls) calls
      match outcome with
      | .ok m => playOn reply verbose turns m calls
      | .error f => (calls, .error f)

end Match

end Goban
