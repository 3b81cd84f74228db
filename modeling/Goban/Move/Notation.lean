import Goban.Move
import Goban.Text.Blank
import Goban.Text.Digits
import Goban.Text.Upper

/-!
# Moves in text

Two notations. A *vertex* of the text protocol between players and programs is a column letter,
which is never `I`, and a row number counted from the bottom; `pass` and `resign` are words. A game
record names a point by two small letters, column before row, and a pass by the empty text.

Vertices are read in either case and with blanks around them (`ofVertex?`); they are written by
`vertex`, and what is written is read back.
-/

namespace Goban.Move

/-- The letters of the columns from left to right, without `I`. -/
def columnLetters : List Char := ['A', 'B', 'C', 'D', 'E', 'F', 'G', 'H', 'J']

/-- The vertex of a point: its column letter and its row counted from the bottom. -/
def pointVertex (p : Point) : String :=
  String.singleton (columnLetters.getD p.column '?') ++ toString (side - p.row)

/-- The text of a move. -/
def vertex : Move → String
  | stone p => pointVertex p
  | pass => "pass"
  | resign => "resign"

/-- The point of an upper case vertex: a column letter followed by the digits of a row number. -/
def ofPointVertex? : List Char → Option Move
  | [] => none
  | letter :: digits => do
    let column ← columnLetters.idxOf? letter
    let row ← Text.wordOfDigits? digits
    if h : (1 ≤ row ∧ row ≤ side) ∧ column < side then
      some (stone (Point.ofRowColumn (side - row) column (Nat.sub_lt (by decide) h.1.1) h.2))
    else none

/-- The move that a text stands for, in either case and with blanks around it. -/
def ofVertex? (s : String) : Option Move :=
  let u := Text.upper (Text.trim s.toList)
  if u = ['P', 'A', 'S', 'S'] then some pass
  else if u = ['R', 'E', 'S', 'I', 'G', 'N'] then some resign
  else ofPointVertex? u

/-- The small letter with a number. -/
def smallLetter (n : Nat) : Char := Char.ofNat ('a'.toNat + n)

/-- The text of a move in a game record; a resignation has no place there. -/
def recordText : Move → Except Fault String
  | stone p => .ok (String.ofList [smallLetter p.column, smallLetter p.row])
  | pass => .ok ""
  | resign => .error .resignationPlace

end Goban.Move
