import Goban.Single

/-!
# Weights from scores

Networks score moves by numbers of any size. Their weights are the exponentials of the scores over
the sum of all exponentials; the greatest score is taken off first so that none overflows. A score
that is not finite counts as the least finite number.
-/

namespace Goban

/-- The weights of scores. They add up to one, but for rounding. -/
def softmax (scores : List Single) : List Single :=
  let scores := scores.map fun s => if s.isFinite then s else .least
  let greatest := scores.foldl Single.max .least
  let powers := scores.map fun s => (s - greatest).exp
  let total := Single.sum powers
  powers.map (· / total)

end Goban
