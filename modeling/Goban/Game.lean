import Goban.Position
import Goban.Single.Decimal

/-!
# Games

A game is the record of a match between two named players: the moves with comments, the position they
lead to, and, once it is over, how it ended and its result. It ends by two passes, and then its
result is the score of the board, or by a resignation, and then it is plus or minus one. A result
above zero is black's win, any other white's. A game that is over takes no further move.
-/

namespace Goban

/-- What the players agree on before a game. -/
structure GameOptions where
  resignEnabled : Bool
  /-- A player whose expected outcome drops below this resigns. -/
  resignThreshold : Single
  komi : Single
deriving DecidableEq, Repr

namespace GameOptions

/-- The usual compensation, 7.5 points. -/
def usualKomi : Single := ⟨0x40f00000⟩

/-- Resignation below -0.999, and the usual compensation. -/
def usual : GameOptions := ⟨true, ⟨0xbf7fbe77⟩, usualKomi⟩

end GameOptions

/-- How a game came to its end. -/
inductive Ending where
  | bothPassed
  | resignation
deriving DecidableEq, Repr

/-- A move in the record of a game. -/
structure Turn where
  color : Color
  move : Move
  comment : String
deriving DecidableEq, Repr

/-- The record of a match. -/
structure Game where
  blackName : String
  whiteName : String
  options : GameOptions
  position : Position
  /-- The moves in the order of play. -/
  turns : List Turn
  /-- Comments on the game as a whole. -/
  comments : List String
  ending : Option Ending
  /-- The outcome for black, zero while the game goes on. -/
  result : Single
deriving DecidableEq

namespace Game

/-- A game from a given position. -/
def fromPosition (blackName whiteName : String) (options : GameOptions) (position : Position) :
    Game where
  blackName := blackName
  whiteName := whiteName
  options := options
  position := position
  turns := []
  comments := []
  ending := none
  result := .zero

/-- A game from the empty board. -/
def new (blackName whiteName : String) (options : GameOptions) : Game :=
  fromPosition blackName whiteName options (.initial options.komi)

/-- Whether the game has come to its end. -/
def isOver (g : Game) : Bool := g.ending.isSome

/-- The game after the side to play has resigned. The board is left as it is. -/
def resigned (g : Game) : Game :=
  { g with ending := some .resignation, result := -g.position.toPlay.sign }

/-- Makes a move of the side to play and writes it down, or says why it is refused. -/
def makeMove (m : Move) (comment : String) : Call IllegalMove Game Unit := do
  let before ← get
  if before.isOver then throw .gameOver
  else if m = .resign then set before.resigned
  else
    Call.within Game.position (fun g position => { g with position }) (Position.makeMove m)
    modify fun g => { g with turns := g.turns ++ [⟨before.position.toPlay, m, comment⟩] }
    modify fun g =>
      if g.position.isOver then { g with ending := some .bothPassed, result := g.position.score }
      else g

/-- The game after a move of the side to play, or why the move is refused. -/
def add (g : Game) (m : Move) (comment : String) : Except IllegalMove Game :=
  (makeMove m comment).outcome g

/-- The game with one more comment. -/
def addComment (g : Game) (comment : String) : Game :=
  { g with comments := g.comments ++ [comment] }

/-- The winner of a game that is over. -/
def winner (g : Game) : Option Color :=
  if !g.isOver then none else if .zero < g.result then some .black else some .white

/-- The result in the notation of game records: the winner's letter and the margin, or `R` for a
resignation; a question mark while the game goes on. -/
def resultText (g : Game) : String :=
  match g.winner with
  | none => "?"
  | some winner =>
    match g.ending with
    | some .resignation => winner.letter ++ "+R"
    | _ => winner.letter ++ "+" ++ g.result.abs.fixed 1

end Game

end Goban
