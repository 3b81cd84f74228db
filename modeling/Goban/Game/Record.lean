import Goban.Game
import Goban.Path

/-!
# Game records

A game is written as a record of properties in square brackets: one node with the facts about the
game, then one node for each move. In names and comments a closing bracket and a backslash are
preceded by a backslash, so that a value ends at the first closing bracket that is not; all other
values stand as they are.
-/

namespace Goban.Game

/-- The name of the program that records are signed with. -/
def programName : String := "go-arena"

/-- The characters of a value. -/
def escape : List Char → List Char
  | [] => []
  | c :: rest => if c = ']' ∨ c = '\\' then '\\' :: c :: escape rest else c :: escape rest

/-- A property with its value as it stands. -/
def plainProperty (name value : String) : String := name ++ "[" ++ value ++ "]"

/-- A property with any text as its value. -/
def property (name value : String) : String :=
  plainProperty name (String.ofList (escape value.toList))

/-- The properties of the game as a whole. -/
def header (g : Game) : String :=
  "(;GM[1]FF[4]CA[UTF-8]" ++ plainProperty "AP" programName ++ plainProperty "RU" "Chinese"
    ++ plainProperty "SZ" (toString side) ++ plainProperty "KM" g.position.komi.shortest
    ++ property "PB" g.blackName ++ property "PW" g.whiteName ++ plainProperty "RE" g.resultText

/-- A comment, if comments are wanted and there is one. -/
def commentText (withComments : Bool) (comment : String) : String :=
  if withComments && !comment.isEmpty then property "C" comment else ""

/-- The node of a move. -/
def turnText (withComments : Bool) (t : Turn) : Except Fault String := do
  let place ← t.move.recordText
  return "\n;" ++ plainProperty t.color.letter place ++ commentText withComments t.comment

/-- The record of a game. -/
def record (g : Game) (withComments : Bool) : Except Fault String := do
  let comments :=
    if withComments && !g.comments.isEmpty then property "C" ("\n".intercalate g.comments) else ""
  let turns ← g.turns.mapM (turnText withComments)
  return g.header ++ comments ++ String.join turns ++ ")\n"

/-- The file of a record in a directory. -/
def recordPath (directory name : String) : String := Path.join directory (name ++ ".sgf")

end Goban.Game
