import Goban.Board.Area
import Goban.Board.Life
import Goban.Call
import Goban.Single

/-!
# Positions and the rules of play

A position is a board with what the rules need besides: whose turn it is, the point that a simple ko
forbids, how many passes came last, the boards before this one, and the compensation for white. Two
passes in a row end the game.

`makeMove` makes a move in a position or says why the rules refuse it, and `play` gives the position
that is made; `isLegal` answers the same question without making the move.
-/

namespace Goban

/-- The number of earlier boards that a position remembers. -/
abbrev historyLength : Nat := 7

/-- A board and whatever decides which moves may follow. -/
structure Position where
  board : Board
  /-- The boards before this one, the latest first; blank where there was none. -/
  history : Vector Board historyLength
  toPlay : Color
  /-- The point on which the last move's capture must not be answered at once. -/
  ko : Option Point
  /-- The number of moves made, which starts again at zero where a word of 32 bits ends. -/
  moveCount : UInt32
  /-- The number of passes since the last stone. -/
  passes : Nat
  /-- The compensation for white. -/
  komi : Single
deriving DecidableEq

namespace Position

/-- A position without a past. -/
def ofBoard (board : Board) (toPlay : Color) (moveCount : UInt32) (komi : Single) :
    Position where
  board := board
  history := Vector.replicate historyLength Board.blank
  toPlay := toPlay
  ko := none
  moveCount := moveCount
  passes := 0
  komi := komi

/-- The empty board with black to play. -/
def initial (komi : Single) : Position := ofBoard .blank .black 0 komi

/-- The board so many moves ago, if it is remembered. -/
def boardAt? (pos : Position) (age : Nat) : Option Board :=
  if age = 0 then some pos.board else pos.history[age - 1]?

/-- Two passes in a row end the game. -/
def isOver (pos : Position) : Bool := 2 ≤ pos.passes

/-- Whether two positions agree in everything. A compensation that is no number equals none. -/
def agrees (a b : Position) : Bool :=
  a.komi.equals b.komi && decide ({ a with komi := b.komi } = b)

/-! ## Legal moves -/

/-- Whether a stone of the side to play on an empty point would stand without a liberty: no
neighbour is empty, no chain of its own there has another liberty, and none of the opponent's loses
its last one. -/
def isSuicide (pos : Position) (p : Point) : Bool :=
  p.neighbours.all fun q =>
    match pos.board[q] with
    | none => false
    | some color =>
      if color = pos.toPlay then pos.board.libertyCount q ≤ 1 else pos.board.libertyCount q != 1

/-- Whether a move may be played. Resignation is no move on the board. -/
def isLegal (pos : Position) : Move → Bool
  | .resign => false
  | .pass => !pos.isOver
  | .stone p => !pos.isOver && pos.board[p].isNone && pos.ko != some p && !pos.isSuicide p

/-- The moves that may be played: the stones in the order of their points, then pass. -/
def legalMoves (pos : Position) : List Move :=
  if pos.isOver then []
  else ((Point.all.map Move.stone).filter pos.isLegal) ++ [.pass]

/-! ## Making a move -/

/-- Puts the present board in front of the remembered ones. -/
def remember (pos : Position) : Vector Board historyLength :=
  Vector.ofFn fun i => if i.val = 0 then pos.board else pos.history[i.val - 1]

/-- The point that a simple ko forbids after a stone on `p` captured the given stones: the only one,
if the capturing stone stands alone and has no other liberty. -/
def koAfter (board : Board) (captured : List Point) (p : Point) : Option Point :=
  let (own, liberties) := board.group p
  if captured.length = 1 ∧ own.length = 1 ∧ liberties = 1 then captured.head? else none

/-- Puts a stone on `p` and takes off the board what it captures. If the stone has no liberty then,
the board is put back. -/
def putStone (p : Point) : Call IllegalMove Position Unit := do
  let before ← get
  if before.board[p].isSome then throw (.occupied p)
  else if before.ko = some p then throw (.ko p)
  else
    let placed : Board := before.board.set p (some before.toPlay) p.isLt
    modify fun pos => { pos with board := placed }
    let (board, captured) := placed.capture before.toPlay.other p
    modify fun pos => { pos with board }
    if board.libertyCount p = 0 then
      modify fun pos => { pos with board := before.board }
      throw (.suicide p)
    else
      modify fun pos => { pos with ko := koAfter board captured p, passes := 0 }

/-- Makes a move in the position, or says why the rules refuse it. -/
def makeMove (m : Move) : Call IllegalMove Position Unit := do
  let before ← get
  if m = .resign then throw .resign
  else if before.isOver then throw .gameOver
  else
    match m with
    | .stone p => putStone p
    | _ => modify fun pos => { pos with ko := none, passes := pos.passes + 1 }
    modify fun pos => { pos with
      history := before.remember
      toPlay := pos.toPlay.other
      moveCount := pos.moveCount + 1 }

/-- The position after a move, or why the rules refuse it. -/
def play (pos : Position) (m : Move) : Except IllegalMove Position := (makeMove m).outcome pos

/-- The position after several moves, or why one of them is refused. -/
def playAll (pos : Position) (moves : List Move) : Except IllegalMove Position :=
  moves.foldlM play pos

/-! ## The outcome -/

/-- Black's area less white's and less the compensation; black wins if it is positive. -/
def score (pos : Position) : Single := .ofInt pos.board.areaBalance - pos.komi

/-- A third of the points; with fewer moves made the board is not examined for life. -/
def earliestRace : Nat := pointCount / 3

/-- Whether no move can change the outcome any more, so that both sides may simply pass. -/
def isRace (pos : Position) : Bool := earliestRace ≤ pos.moveCount.toNat && pos.board.isSettled

end Position

end Goban
