import Goban.Board

/-!
# Area

A side's area is its stones and the empty points from which only its stones can be reached.
`areaBalance` counts the areas in one scan of the points. A stone counts where it stands. At the
first point of a connected empty set the whole set is walked through (`survey`), and its points are
marked, so that the scan passes over the others.
-/

namespace Goban.Board

/-- What a stone adds to black's balance. -/
def stoneBalance : Option Color → Int
  | some .black => 1
  | some .white => -1
  | none => 0

/-- What a walk through empty points has met: the number of its points, and the colors of the stones
next to them. -/
structure Survey where
  size : Nat
  black : Bool
  white : Bool
deriving DecidableEq, Repr

namespace Survey

/-- A walk that has not begun. -/
def start : Survey := ⟨0, false, false⟩

/-- The walk with one more point. -/
def add (b : Board) (p : Point) (s : Survey) : Survey where
  size := s.size + 1
  black := s.black || p.neighbours.any fun q => b[q] == some .black
  white := s.white || p.neighbours.any fun q => b[q] == some .white

/-- What the points of a walk add to black's balance: their number for the only color next to
them. -/
def balance (s : Survey) : Int :=
  match s.black, s.white with
  | true, false => s.size
  | false, true => -s.size
  | _, _ => 0

end Survey

/-- Walks from the points on the stack to all empty points that are not marked yet, and marks them. -/
def survey (b : Board) (stack : List Point) (seen : PointSet) (met : Survey) :
    Survey × PointSet :=
  match stack with
  | [] => (met, seen)
  | p :: rest =>
    let next := PointSet.push (fun q => b[q].isNone) p.neighbours (rest, seen)
    survey b next.1 next.2 (met.add b p)
termination_by stack.length + seen.missing
decreasing_by
  have := PointSet.push_measure (fun q => b[q].isNone) p.neighbours (rest, seen)
  simp only [List.length_cons] at *
  omega

/-- Takes one more point into the balance, with the connected set of an empty one that is not marked
yet. -/
def scan (b : Board) (so : Int × PointSet) (p : Point) : Int × PointSet :=
  match b[p] with
  | some color => (so.1 + stoneBalance (some color), so.2)
  | none =>
    if so.2.has p then so
    else
      let (region, seen) := b.survey [p] (so.2.insert p) .start
      (so.1 + region.balance, seen)

/-- Black's area less white's. -/
def areaBalance (b : Board) : Int := (Point.all.foldl b.scan (0, .empty)).1

end Goban.Board
