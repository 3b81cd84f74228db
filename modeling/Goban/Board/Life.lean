import Goban.Board

/-!
# Life without conditions

A chain lives without conditions if it stays on the board even when its owner passes for ever. After
Benson, these are the chains of the largest collection in which every chain has two *vital* regions
whose bordering chains all belong to the collection. A region of a color is a connected set of
points without its stones, and it is vital to a chain that borders it if all its empty points are
next to the chain.

`life` starts from all chains and regions and removes what cannot stay until nothing changes. A point
is *settled* for a color if it is in a living chain of that color, or in a stoneless region enclosed
by living chains.
-/

namespace Goban.Board

/-- The chains of one color. -/
def chains (b : Board) (color : Color) : List PointSet :=
  PointSet.components fun p => b[p] == some color

/-- The connected sets of points without a stone of the color. -/
def regions (b : Board) (color : Color) : List PointSet :=
  PointSet.components fun p => b[p] != some color

/-- Whether the chain borders the region and is next to every empty point of it. -/
def isVital (b : Board) (region chain : PointSet) : Bool :=
  (region.any fun p => p.neighbours.any chain.has)
    && region.all fun p => b[p].isSome || p.neighbours.any chain.has

/-- Whether every stone of the color next to the region belongs to one of the chains. -/
def isEnclosed (b : Board) (color : Color) (chains : List PointSet) (region : PointSet) : Bool :=
  region.all fun p => p.neighbours.all fun q => b[q] != some color || chains.any (·.has q)

/-- The chains with two vital regions among those given. -/
def keepChains (b : Board) (chains regions : List PointSet) : List PointSet :=
  chains.filter fun chain => 2 ≤ (regions.filter fun region => b.isVital region chain).length

/-- The regions that only the given chains enclose. -/
def keepRegions (b : Board) (color : Color) (chains regions : List PointSet) : List PointSet :=
  regions.filter (b.isEnclosed color chains)

/-- Removes chains and regions in turn until nothing changes. -/
def lifeFrom (b : Board) (color : Color) (chains regions : List PointSet) :
    List PointSet × List PointSet :=
  let fewer := b.keepChains chains regions
  let kept := b.keepRegions color fewer regions
  if fewer.length + kept.length < chains.length + regions.length then lifeFrom b color fewer kept
  else (fewer, kept)
termination_by chains.length + regions.length

/-- The chains of a color that live without conditions, and the regions that only they enclose. -/
def life (b : Board) (color : Color) : List PointSet × List PointSet :=
  b.lifeFrom color (b.chains color) ((b.regions color).filter (b.borders · color))

/-- The points settled for a color. -/
def settled (b : Board) (color : Color) : PointSet :=
  let (chains, regions) := b.life color
  let stoneless := regions.filter fun region => region.all fun p => b[p].isNone
  (chains ++ stoneless).foldl .union .empty

/-- Whether every point is settled, so that no move can change the score. -/
def isSettled (b : Board) : Bool :=
  let black := b.settled .black
  let white := b.settled .white
  Point.all.all fun p => black.has p || white.has p

end Goban.Board
