import Goban.Single

/-!
# Options of a player

How much a player searches, and how it weighs what it knows against what it has not tried.
-/

namespace Goban

/-- The options of a player. -/
structure PlayerOptions where
  /-- The number of visits for each move. -/
  readouts : Nat
  /-- The number of leaves that are evaluated together. -/
  virtualLosses : Nat
  /-- Whether noise is mixed into the priors below the root. -/
  injectNoise : Bool
  seed : UInt64
  /-- How much worse than its parent a move counts that was never tried. -/
  untriedPenalty : Single
  /-- The weight of moves that were tried little. -/
  exploration : Single
  /-- The concentration of the noise; noise of a low concentration favours few moves. -/
  noiseAlpha : Single
  /-- The share of noise in the priors below the root. -/
  noiseShare : Single
deriving DecidableEq, Repr

namespace PlayerOptions

/-- A hundred visits by eights without noise; the weight of exploration is the root of two. -/
def usual : PlayerOptions where
  readouts := 100
  virtualLosses := 8
  injectNoise := false
  seed := 0
  untriedPenalty := ⟨0x40000000⟩
  exploration := ⟨0x3fb504f3⟩
  noiseAlpha := ⟨0x3cf5c28f⟩
  noiseShare := ⟨0x3e800000⟩

/-- Whether the options are within their ranges. -/
def isValid (o : PlayerOptions) : Bool :=
  0 < o.virtualLosses && (decide (.zero ≤ o.exploration)) && (decide (.zero ≤ o.noiseAlpha))
    && (decide (.zero ≤ o.noiseShare)) && (decide (o.noiseShare ≤ .one))

end PlayerOptions

end Goban
