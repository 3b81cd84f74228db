import Mathlib.Algebra.BigOperators.Fin
import Mathlib.Data.Set.Card
import Goban.Position
import Goban.Proofs.Rules.Survey

/-!
# The score counts the areas

The area of a color is its stones, and the empty points from which one gets through empty points to a
stone of this color and to none of the other (`Board.area`). From the points of a connected empty
set one gets to the same stones, so that each of them adds the same to the balance
(`Board.regionBalance_eq`). Taken point by point, the balance is the number of points of black's
area less that of white's (`Position.score_counts_areas`).
-/

namespace Goban

namespace Board

variable {b : Board} {color : Color} {p q : Point} {region : PointSet}

/-- Through empty points one gets from the point to a neighbour of a stone of the color. -/
def Reaches (b : Board) (color : Color) (p : Point) : Prop :=
  ∃ q r, Relation.ReflTransGen (fun x y => x.Touches y ∧ b[y] = none) p q ∧ q.Touches r ∧
    b[r] = some color

/-- The points that count for a color: its stones, and the empty points from which it is reached
alone. -/
def area (b : Board) (color : Color) : Set Point :=
  {p | b[p] = some color ∨ b[p] = none ∧ b.Reaches color p ∧ ¬ b.Reaches color.other p}

/-- The board with the colors of all stones exchanged. -/
def exchanged (b : Board) : Board := b.map (·.map Color.other)

/-! ## From one empty point -/

theorem reaches_iff :
    b.Reaches color p ↔ b.borders (.flood (fun q => b[q].isNone) p) color = true := by
  have hway : ∀ q, Relation.ReflTransGen (fun x y => x.Touches y ∧ b[y] = none) p q ↔
      (PointSet.flood (fun q => b[q].isNone) p).has q = true := by
    intro q
    simp only [PointSet.has_flood, PointSet.Linked, Point.mem_neighbours,
      Option.isNone_iff_eq_none]
  simp only [Reaches, borders, PointSet.any_eq_true, List.any_eq_true, beq_iff_eq, hway,
    Point.mem_neighbours]
  constructor
  · rintro ⟨q, r, hq, hr, hcolor⟩
    exact ⟨q, hq, r, hr, hcolor⟩
  · rintro ⟨q, hq, r, hr, hcolor⟩
    exact ⟨q, r, hq, hr, hcolor⟩

/-! ## Point by point -/

open Classical in
/-- What a point adds to black's balance. -/
noncomputable def credit (b : Board) (p : Point) : Int :=
  (if p ∈ b.area .black then 1 else 0) - if p ∈ b.area .white then 1 else 0

theorem credit_of_stone (hp : b[p] = some color) : b.credit p = stoneBalance (some color) := by
  cases color <;> simp [credit, area, hp, stoneBalance]

/-- An empty point counts for the color that is reached from it alone. -/
theorem credit_of_empty (hp : b[p] = none) :
    b.credit p = match b.borders (.flood (fun q => b[q].isNone) p) .black,
        b.borders (.flood (fun q => b[q].isNone) p) .white with
      | true, false => 1
      | false, true => -1
      | _, _ => 0 := by
  have harea : ∀ color, p ∈ b.area color ↔
      b.borders (.flood (fun q => b[q].isNone) p) color = true ∧
        ¬ b.borders (.flood (fun q => b[q].isNone) p) color.other = true := by
    intro color
    rw [← reaches_iff, ← reaches_iff]
    simp [area, hp]
  simp only [credit, harea, Color.other]
  cases b.borders (.flood (fun q => b[q].isNone) p) .black <;>
    cases b.borders (.flood (fun q => b[q].isNone) p) .white <;> rfl

/-- A connected empty set adds what its points add. -/
theorem regionBalance_eq (h : region ∈ b.emptyRegions) :
    b.regionBalance region = (region.toList.map b.credit).sum := by
  obtain ⟨p, hp, rfl⟩ := PointSet.mem_components.mp h
  have hcredit : (PointSet.flood (fun q => b[q].isNone) p).toList.map b.credit =
      (PointSet.flood (fun q => b[q].isNone) p).toList.map fun _ => b.credit p := by
    refine List.map_congr_left fun q hq => ?_
    have hq := PointSet.mem_toList.mp hq
    have hempty := PointSet.inside_of_has_flood hp hq
    rw [credit_of_empty (Option.isNone_iff_eq_none.mp hempty),
      credit_of_empty (Option.isNone_iff_eq_none.mp hp), PointSet.flood_eq hp hq]
  rw [hcredit, List.map_const', List.sum_replicate, PointSet.length_toList,
    credit_of_empty (Option.isNone_iff_eq_none.mp hp)]
  simp only [regionBalance, surveyOf, Survey.balance]
  cases b.borders (.flood (fun q => b[q].isNone) p) .black <;>
    cases b.borders (.flood (fun q => b[q].isNone) p) .white <;> simp

/-- Stones and connected empty sets together have every point once. -/
theorem areaBalance_eq_sum_credit (b : Board) :
    b.areaBalance = (Point.all.map b.credit).sum := by
  have hstones : (Point.all.map fun p => stoneBalance b[p]).sum =
      ((Point.all.filter fun p => ¬ b[p].isNone = true).map b.credit).sum := by
    have hsplit : Point.all.map (fun p => stoneBalance b[p]) =
        Point.all.map fun p => if b[p].isNone = true then 0 else b.credit p := by
      refine List.map_congr_left fun p _ => ?_
      cases hp : b[p] with
      | none => rfl
      | some color => exact (credit_of_stone hp).symm
    rw [hsplit, List.sum_map_ite, List.map_const', List.sum_replicate]
    rw [nsmul_zero, zero_add]
  have hempty : (b.emptyRegions.map b.regionBalance).sum =
      ((Point.all.filter fun p => b[p].isNone).map b.credit).sum := by
    rw [← PointSet.sum_components]
    exact congrArg List.sum (List.map_congr_left fun region hregion => regionBalance_eq hregion)
  rw [areaBalance_eq, hstones, hempty, add_comm]
  simpa only [Bool.decide_eq_true] using
    List.sum_map_filter_add_sum_map_filter_not (fun p : Point => b[p].isNone = true) b.credit
      Point.all

open Classical in
theorem sum_area (b : Board) (color : Color) :
    (Point.all.map fun p => if p ∈ b.area color then (1 : Int) else 0).sum =
      (b.area color).ncard := by
  have hset : b.area color = (Finset.univ.filter (· ∈ b.area color) : Finset Point) := by simp
  rw [Point.all, ← Fin.sum_univ_def, Finset.sum_boole]
  conv_rhs => rw [hset, Set.ncard_coe_finset]

theorem areaBalance_eq_ncard (b : Board) :
    b.areaBalance = ((b.area .black).ncard : Int) - (b.area .white).ncard := by
  rw [areaBalance_eq_sum_credit, ← sum_area, ← sum_area]
  simp only [Point.all, ← Fin.sum_univ_def, credit, Finset.sum_sub_distrib]

theorem ncard_area_le (b : Board) (color : Color) : (b.area color).ncard ≤ pointCount := by
  have h := Set.ncard_le_ncard (Set.subset_univ (b.area color))
  rwa [Set.ncard_univ, Nat.card_fin] at h

/-! ## Exchanged colors -/

theorem getElem_exchanged (b : Board) (p : Point) : b.exchanged[p] = b[p].map Color.other := by
  simp [exchanged, Point.getElem_eq]

theorem exchanged_eq_none : b.exchanged[p] = none ↔ b[p] = none := by
  rw [getElem_exchanged, Option.map_eq_none_iff]

theorem exchanged_eq_some : b.exchanged[p] = some color ↔ b[p] = some color.other := by
  rw [getElem_exchanged, Option.map_eq_some_iff]
  constructor
  · rintro ⟨c, hc, rfl⟩
    rw [hc, Color.other_other]
  · intro h
    exact ⟨_, h, Color.other_other color⟩

theorem area_exchanged (b : Board) (color : Color) : b.exchanged.area color = b.area color.other := by
  have hreaches : ∀ color p, b.exchanged.Reaches color p ↔ b.Reaches color.other p := by
    intro color p
    simp only [Reaches, exchanged_eq_none, exchanged_eq_some]
  ext p
  simp only [area, Set.mem_ofPred_eq, exchanged_eq_none, exchanged_eq_some, hreaches]

end Board

namespace Position

/-- The score is the number of points of black's area less that of white's, as a single precision
number, less the compensation; the difference is at most the number of points, and changes its sign
with the colors. -/
theorem score_counts_areas (pos : Position) :
    pos.score = .ofInt pos.board.areaBalance - pos.komi ∧
      pos.board.areaBalance =
        ((pos.board.area .black).ncard : Int) - (pos.board.area .white).ncard ∧
      -(pointCount : Int) ≤ pos.board.areaBalance ∧ pos.board.areaBalance ≤ pointCount ∧
      pos.board.exchanged.areaBalance = -pos.board.areaBalance := by
  have hblack := pos.board.ncard_area_le .black
  have hwhite := pos.board.ncard_area_le .white
  have hbalance := pos.board.areaBalance_eq_ncard
  refine ⟨rfl, hbalance, by omega, by omega, ?_⟩
  rw [Board.areaBalance_eq_ncard, Board.area_exchanged, Board.area_exchanged, hbalance]
  simp only [Color.other]
  omega

end Position

end Goban
