import Goban.Color
import Goban.Fault
import Goban.PointSet
import Goban.Text.Blank

/-!
# Boards

A board says for each point which stone stands on it, if any. The *chain* of a point is the connected
set of points that hold the same as it, and the *liberties* of a set are the empty points next to
it. A chain of stones without a liberty is off the board as soon as the opponent has moved.

The rules of play ask for both at once: `group` walks through the chain of a stone, lists its stones
and counts its liberties on the way.
-/

namespace Goban

/-- What stands on each point. -/
abbrev Board := Vector (Option Color) pointCount

namespace Board

/-- The board without a stone. -/
def blank : Board := Vector.replicate pointCount none

/-- The character of a point in the text of a board. -/
def symbol : Option Color → Char
  | some .black => 'X'
  | some .white => 'O'
  | none => '.'

/-- What stands on a point, from its character. -/
def ofSymbol : Char → Except Fault (Option Color)
  | 'X' => .ok (some .black)
  | 'O' => .ok (some .white)
  | '.' => .ok none
  | c => .error (.boardCharacter c)

/-- The board of a text: a character for each point, with blanks anywhere. -/
def ofText (s : String) : Except Fault Board := do
  let cells ← (s.toList.filter fun c => !Text.isBlank c).mapM ofSymbol
  if h : cells.toArray.size = pointCount then .ok ⟨cells.toArray, h⟩
  else .error (.boardSize cells.length)

/-- The characters of all points, row by row. -/
def text (b : Board) : String := String.ofList (b.toList.map symbol)

/-- The connected set of points that hold the same as `p`. -/
def chain (b : Board) (p : Point) : PointSet := .flood (fun q => b[q] == b[p]) p

/-- The empty points next to a set. -/
def liberties (b : Board) (s : PointSet) : PointSet :=
  .ofPred fun p => b[p].isNone && p.neighbours.any s.has

/-! ## Groups -/

/-- What a walk through a chain has met: its stones, the latest first, the marks of the empty points
next to them, and how many points are marked. -/
structure Gathered where
  stones : List Point
  free : PointSet
  liberties : Nat

namespace Gathered

/-- A walk that has not begun. -/
def start : Gathered := ⟨[], .empty, 0⟩

/-- Marks and counts an empty point that is not marked yet. -/
def touch (b : Board) (met : Gathered) (p : Point) : Gathered :=
  if b[p].isNone && !met.free.has p then
    { met with free := met.free.insert p, liberties := met.liberties + 1 }
  else met

/-- The walk with one more stone. -/
def add (b : Board) (p : Point) (met : Gathered) : Gathered :=
  p.neighbours.foldl (touch b) { met with stones := p :: met.stones }

end Gathered

/-- Walks from the stones on the stack to all stones inside that are not marked yet, and marks
them. -/
def gather (b : Board) (inside : Point → Bool) (stack : List Point) (seen : PointSet)
    (met : Gathered) : Gathered :=
  match stack with
  | [] => met
  | p :: rest =>
    let next := PointSet.push inside p.neighbours (rest, seen)
    gather b inside next.1 next.2 (met.add b p)
termination_by stack.length + seen.missing
decreasing_by
  have := PointSet.push_measure inside p.neighbours (rest, seen)
  simp only [List.length_cons] at *
  omega

/-- The stones of the chain of `p`, in the order in which a walk from `p` meets them, and the number
of its liberties. -/
def group (b : Board) (p : Point) : List Point × Nat :=
  let met := b.gather (fun q => b[q] == b[p]) [p] (PointSet.empty.insert p) .start
  (met.stones.reverse, met.liberties)

/-- The number of liberties of the chain of `p`. -/
def libertyCount (b : Board) (p : Point) : Nat := (b.group p).2

/-! ## Captures -/

/-- The board without some stones, which are taken off one by one. -/
def takeOff (b : Board) (stones : List Point) : Board :=
  stones.foldl (fun (b : Board) (p : Point) => b.set p none p.isLt) b

/-- Takes the chain of a neighbour off the board if it is of a color and has no liberty, and adds its
stones to those that were captured before. -/
def captureNext (color : Color) (now : Board × List Point) (q : Point) : Board × List Point :=
  let (b, captured) := now
  if b[q] = some color then
    let (stones, liberties) := b.group q
    if liberties = 0 then (b.takeOff stones, captured ++ stones) else now
  else now

/-- The board after all stones of `color` next to `p` were looked at one after the other, and what was
captured on the way. Each of them is looked at on the board that the ones before have left. -/
def capture (b : Board) (color : Color) (p : Point) : Board × List Point :=
  p.neighbours.foldl (captureNext color) (b, [])

/-- Whether a stone of `color` stands next to a point of the set. -/
def borders (b : Board) (s : PointSet) (color : Color) : Bool :=
  s.any fun p => p.neighbours.any fun q => b[q] == some color

end Board

end Goban
