import Goban.Single

/-!
# Noise

Noise is a list of random shares. A `NoiseSource` is any way to draw them from the state of a
generator; `dirichlet` draws them from the Dirichlet distribution with the same concentration for
every share, as the parts of independent gamma variates in their sum, so that they add up to one but
for rounding.
-/

namespace Goban

/-- A way to draw random shares: from their concentration, their number and the state of a
generator come the shares and the next state. -/
abbrev NoiseSource := Single → Nat → UInt64 → List Single × UInt64

namespace Noise

/-- The next word of a generator, and its next state. -/
def nextWord (state : UInt64) : UInt64 × UInt64 :=
  let state := state + 0x9e3779b97f4a7c15
  let z := (state ^^^ (state >>> 30)) * 0xbf58476d1ce4e5b9
  let z := (z ^^^ (z >>> 27)) * 0x94d049bb133111eb
  (z ^^^ (z >>> 31), state)

/-- A number above zero and at most one. -/
def nextUnit (state : UInt64) : Float × UInt64 :=
  let (word, state) := nextWord state
  ((word >>> 11).toFloat / 9007199254740992 + 1 / 9007199254740992, state)

/-- A number from the normal distribution. -/
def nextNormal (state : UInt64) : Float × UInt64 :=
  let (u, state) := nextUnit state
  let (v, state) := nextUnit state
  (Float.sqrt (-2 * Float.log u) * Float.cos (6.283185307179586 * v), state)

/-- A number from the gamma distribution of a shape of at least one, by rejection of candidates. -/
def nextLargeGamma (shape : Float) (state : UInt64) : (attempts : Nat) → Float × UInt64
  | 0 => (shape, state)
  | attempts + 1 =>
    let d := shape - 1 / 3
    let (x, state) := nextNormal state
    let root := 1 + x / Float.sqrt (9 * d)
    let v := root * root * root
    let (u, state) := nextUnit state
    if 0 < v && Float.log u < 0.5 * x * x + d - d * v + d * Float.log v then (d * v, state)
    else nextLargeGamma shape state attempts

/-- A number from the gamma distribution of any positive shape. -/
def nextGamma (shape : Float) (state : UInt64) : Float × UInt64 :=
  let (g, state) := nextLargeGamma (if shape < 1 then shape + 1 else shape) state 1000
  if shape < 1 then
    let (u, state) := nextUnit state
    (g * Float.pow u (1 / shape), state)
  else (g, state)

/-- So many numbers from a gamma distribution, in single precision. -/
def gammas (shape : Float) : (count : Nat) → UInt64 → List Single × UInt64
  | 0, state => ([], state)
  | count + 1, state =>
    let (g, state) := nextGamma shape state
    let (rest, state) := gammas shape count state
    (.ofNative g.toFloat32 :: rest, state)

/-- All on one share, drawn at random: what a Dirichlet distribution comes to when its concentration
goes to zero. -/
def onOne (count : Nat) (state : UInt64) : List Single × UInt64 :=
  let (word, state) := nextWord state
  let chosen := word.toNat % max count 1
  ((List.range count).map fun i => if i = chosen then .one else .zero, state)

/-- Shares from a Dirichlet distribution. Draws whose shares are not all finite are repeated, which a
concentration near zero needs often; where the sum is too large for a number all shares are zero. -/
def dirichletFrom (alpha : Single) (count : Nat) : (attempts : Nat) → UInt64 →
    List Single × UInt64
  | 0, state => onOne count state
  | attempts + 1, state =>
    let (parts, state) := gammas alpha.native.toFloat count state
    let scale := .one / Single.sum parts
    let shares := parts.map (· * scale)
    if shares.all Single.isFinite then (shares, state)
    else dirichletFrom alpha count attempts state

/-- Shares from a Dirichlet distribution with one concentration for all. -/
def dirichlet : NoiseSource := fun alpha count state => dirichletFrom alpha count 1000 state

end Noise

end Goban
