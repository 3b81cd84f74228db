import Goban.Position
import Goban.Single.Decimal
import Goban.Text.Column

/-!
# Diagrams

A position drawn with letters over the columns and numbers beside the rows, and a line that says
whose turn it is.
-/

namespace Goban.Position

/-- The character of a point; an asterisk marks a ko. -/
def mark (pos : Position) (p : Point) : Char :=
  if pos.board[p].isNone && pos.ko == some p then '*' else Board.symbol pos.board[p]

/-- One row of the diagram behind its number, which is counted from the bottom. -/
def diagramRow (pos : Position) (row : Nat) : String :=
  let marks := (Point.all.filter fun p => p.row == row).map fun p => String.singleton (pos.mark p)
  Text.right 2 (toString (side - row)) ++ " " ++ " ".intercalate marks

/-- The diagram of a position. -/
def diagram (pos : Position) : String :=
  let letters := "   " ++ " ".intercalate (Move.columnLetters.map String.singleton)
  let foot := s!"move {pos.moveCount.toNat}, {pos.toPlay.name} to play, komi {pos.komi.shortest}"
  "\n".intercalate (letters :: (List.range side).map pos.diagramRow ++ [foot])

end Goban.Position
