import Goban.Game
import Goban.Json
import Goban.Text.Column

/-!
# Wins

The wins of a model are counted by its color and by how the games ended; the margins of the games won
on the board are added up.
-/

namespace Goban

/-- The wins of one model with one color. -/
structure ColorWins where
  passed : Nat
  resigned : Nat
  /-- The sum of the margins of the games won on the board. -/
  margin : Single
deriving DecidableEq, Repr

namespace ColorWins

def none : ColorWins := ⟨0, 0, .zero⟩

/-- The number of wins. -/
def total (w : ColorWins) : Nat := w.passed + w.resigned

/-- The wins with one more game. -/
def add (w : ColorWins) (g : Game) : Except Fault ColorWins :=
  match g.ending with
  | some .bothPassed => .ok { w with passed := w.passed + 1, margin := w.margin + g.result.abs }
  | some .resignation => .ok { w with resigned := w.resigned + 1 }
  | Option.none => .error .unfinishedGame

def toJson (w : ColorWins) : Json := .object [
  ("total", .nat w.total),
  ("both_passed", .nat w.passed),
  ("opponent_resigned", .nat w.resigned),
  ("total_margin", .single w.margin)]

end ColorWins

/-- The wins of one model. -/
structure Wins where
  black : ColorWins
  white : ColorWins
deriving DecidableEq, Repr

namespace Wins

def none : Wins := ⟨.none, .none⟩

/-- The wins with one more game that the model has won. -/
def add (w : Wins) (g : Game) : Except Fault Wins :=
  match g.winner with
  | some .black => do return { w with black := ← w.black.add g }
  | some .white => do return { w with white := ← w.white.add g }
  | Option.none => .error .unfinishedGame

/-- The number of wins. -/
def total (w : Wins) : Nat := w.black.total + w.white.total

def toJson (w : Wins) : Json := .object [
  ("total_wins", .nat w.total),
  ("black_wins", w.black.toJson),
  ("white_wins", w.white.toJson)]

/-- A line of the table: a name, a total, and three entries for each color. -/
def tableRow (width : Nat) (name total : String) (black white : String × String × String) :
    String :=
  let entries (e : String × String × String) : String :=
    Text.right 6 e.1 ++ " " ++ Text.right 6 e.2.1 ++ " " ++ Text.right 8 e.2.2
  Text.left width name ++ "  " ++ Text.right 5 total ++ " | " ++ entries black ++ " | "
    ++ entries white

/-- The entries of the table for one color. -/
def tableEntries (w : ColorWins) : String × String × String :=
  (toString w.total, toString w.passed, toString w.resigned)

/-- A table of the wins of several models. The column of names is as wide as the longest name has
bytes, and at least as wide as its heading. -/
def table (rows : List (String × Wins)) : String :=
  let width := rows.foldl (fun w row => max w row.1.utf8ByteSize) 4
  let top := Text.left width "" ++ "  " ++ Text.right 5 "" ++ " | " ++ Text.centre 22 "Black wins"
    ++ " | " ++ Text.centre 22 "White wins"
  let headings := ("Total", "Passes", "Resigns")
  "\n".intercalate (top :: tableRow width "Name" "Total" headings headings ::
    rows.map fun (name, w) =>
      tableRow width name (toString w.total) (tableEntries w.black) (tableEntries w.white))

end Wins

end Goban
