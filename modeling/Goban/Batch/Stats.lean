import Goban.Single

/-!
# Counts of batches

How often models were called, and for how many requests and positions.
-/

namespace Goban

/-- What a device has run so far. -/
structure BatchStats where
  /-- The number of calls of a model. -/
  batches : Nat
  requests : Nat
  positions : Nat
deriving DecidableEq, Repr

namespace BatchStats

def none : BatchStats := ⟨0, 0, 0⟩

/-- The counts of two parts together. -/
def merge (a b : BatchStats) : BatchStats :=
  ⟨a.batches + b.batches, a.requests + b.requests, a.positions + b.positions⟩

/-- The number of positions per call; zero before the first call. -/
def averageSize (s : BatchStats) : Single :=
  if s.batches = 0 then .zero else .ofNat s.positions / .ofNat s.batches

end BatchStats

end Goban
