import Mathlib.Algebra.Group.Nat.Defs
import Goban.Seed

/-!
# Seeds never collide

The number of a player does not wrap as long as the games are fewer than half the words
(`toNat_playerNumber`), so no two players of a run have the same number. The seed is the base plus
so many steps more, and the step is odd: it has an inverse among the words, also for the last
player, whose number wraps when one is added to it. So no two players have the same seed
(`playerSeed_apart`).
-/

namespace Goban

variable {base base' n n' : UInt64} {game game' : Nat} {color color' : Color}

/-! ## The numbers of players -/

theorem toNat_playerNumber (h : game < 2 ^ 63) (color : Color) :
    (playerNumber (.ofNat game) color).toNat =
      match color with
      | .black => 2 * game
      | .white => 2 * game + 1 := by
  have hgame : (UInt64.ofNat game).toNat = game :=
    UInt64.toNat_ofNat_of_lt' (Nat.lt_trans h (by decide))
  have heven : (2 * UInt64.ofNat game).toNat = 2 * game := by
    rw [UInt64.toNat_mul, hgame]
    exact Nat.mod_eq_of_lt (by show 2 * game < 2 ^ 64; omega)
  cases color with
  | black => exact heven
  | white =>
    rw [playerNumber, UInt64.toNat_add, heven]
    exact Nat.mod_eq_of_lt (by show 2 * game + 1 < 2 ^ 64; omega)

/-- The parity of a number tells the color. -/
theorem playerNumber_inj (h : game < 2 ^ 63) (h' : game' < 2 ^ 63) :
    playerNumber (.ofNat game) color = playerNumber (.ofNat game') color' ↔
      game = game' ∧ color = color' := by
  constructor
  · intro heq
    have hnat := congrArg UInt64.toNat heq
    rw [toNat_playerNumber h, toNat_playerNumber h'] at hnat
    cases color <;> cases color' <;> simp only [reduceCtorEq, and_true, and_false] at hnat ⊢ <;>
      omega
  · rintro ⟨rfl, rfl⟩
    rfl

/-! ## Steps from the base -/

/-- The inverse of the step among the words. -/
def goldenInverse : UInt64 := 0xf1de83e19937733d

theorem goldenStep_mul_goldenInverse : goldenStep * goldenInverse = 1 := by decide

theorem mul_goldenStep_inj : n * goldenStep = n' * goldenStep ↔ n = n' := by
  constructor
  · intro heq
    calc
      n = n * goldenStep * goldenInverse := by
        rw [UInt64.mul_assoc, goldenStep_mul_goldenInverse, UInt64.mul_one]
      _ = n' * goldenStep * goldenInverse := by rw [heq]
      _ = n' := by rw [UInt64.mul_assoc, goldenStep_mul_goldenInverse, UInt64.mul_one]
  · rintro rfl
    rfl

/-- Players of one run have the same seed only if they have the same number, whether these wrap or
not. -/
theorem playerSeed_inj {word word' : UInt64} :
    playerSeed base word color = playerSeed base word' color' ↔
      playerNumber word color = playerNumber word' color' := by
  unfold playerSeed
  rw [UInt64.add_right_inj, mul_goldenStep_inj, UInt64.add_left_inj]

/-- No two players of a run have the same seed, nor has one player the same seed in two runs. -/
theorem playerSeed_apart (h : game < 2 ^ 63) (h' : game' < 2 ^ 63) (base : UInt64)
    (color color' : Color) :
    (playerNumber (.ofNat game) color).toNat =
        (match color with
        | .black => 2 * game
        | .white => 2 * game + 1) ∧
      ((game, color) ≠ (game', color') →
        playerSeed base (.ofNat game) color ≠ playerSeed base (.ofNat game') color') ∧
      ∀ (word base' : UInt64), base ≠ base' →
        playerSeed base word color ≠ playerSeed base' word color := by
  refine ⟨toNat_playerNumber h color, ?_, ?_⟩
  · intro hne heq
    obtain ⟨rfl, rfl⟩ := (playerNumber_inj h h').mp (playerSeed_inj.mp heq)
    exact hne rfl
  · intro word base' hne heq
    exact hne ((UInt64.add_left_inj _).mp heq)

/-- The last player of all, whose seed wraps to the base, and the first one. -/
theorem playerSeed_apart_of_last : (2 ^ 63 - 1 : Nat) < 2 ^ 63 ∧ (0 : Nat) < 2 ^ 63 ∧
    playerSeed 1 (.ofNat (2 ^ 63 - 1)) .white = 1 ∧
      playerSeed 1 (.ofNat (2 ^ 63 - 1)) .white ≠ playerSeed 1 (.ofNat 0) .black :=
  ⟨by decide, by decide, by decide,
    (playerSeed_apart (by decide) (by decide) 1 .white .black).2.1 (by decide)⟩

end Goban
