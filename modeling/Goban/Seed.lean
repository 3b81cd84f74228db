import Goban.Color

/-!
# Seeds

Every player of a run draws from a generator of its own. Its seed is the base seed of the run plus an
odd constant, once for the first player of the first game, twice for the second, and so on; because
the constant is odd, no two players share a seed.
-/

namespace Goban

/-- The odd constant nearest to the golden section of the words of 64 bits. -/
def goldenStep : UInt64 := 0x9e3779b97f4a7c15

/-- The number of a player in a run: two for each game, black first. -/
def playerNumber (game : UInt64) : Color → UInt64
  | .black => 2 * game
  | .white => 2 * game + 1

/-- The seed of a player of a run. -/
def playerSeed (base game : UInt64) (color : Color) : UInt64 :=
  base + (playerNumber game color + 1) * goldenStep

end Goban
