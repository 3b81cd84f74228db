import Mathlib.Algebra.BigOperators.Group.List.Basic
import Mathlib.Algebra.Ring.Int.Defs
import Mathlib.Data.List.Nodup
import Goban.Proofs.Rules.Capture

/-!
# Maximal joined sets

`flood` and `components` search; the rules speak of maximal sets in which one gets from each point
to each by steps to neighbours. The components found are these sets
(`PointSet.isComponent_iff`), each of them is found once, and together they have the points that
satisfy the condition, so that a sum over all these points can be taken component by component
(`PointSet.flatMap_components`, `PointSet.sum_components`).
-/

namespace Goban

namespace PointSet

variable {inside : Point → Bool} {good : Point → Prop} {s : Set Point} {t : PointSet} {p q : Point}

/-- The members, as a set of the points of the board. -/
def points (t : PointSet) : Set Point := {p | t.has p = true}

@[simp] theorem mem_points : p ∈ t.points ↔ t.has p = true := Iff.rfl

theorem points_injective : Function.Injective points := by
  intro t t' h
  apply PointSet.ext
  intro p
  rw [Bool.eq_iff_iff]
  exact Set.ext_iff.mp h p

/-- Points with a property, from each of which one gets to each by steps inside the set. -/
structure IsJoined (good : Point → Prop) (s : Set Point) : Prop where
  nonempty : s.Nonempty
  good : ∀ p ∈ s, good p
  joined : ∀ p ∈ s, ∀ q ∈ s, Relation.ReflTransGen (fun x y => x.Touches y ∧ y ∈ s) p q

/-- A maximal joined set of points with a property. -/
def IsComponent (good : Point → Prop) (s : Set Point) : Prop := Maximal (IsJoined good) s

theorem isJoined_flood (h : ∀ p, inside p = true ↔ good p) (hp : good p) :
    IsJoined good (flood inside p).points := by
  have hinside := (h p).mpr hp
  refine ⟨⟨p, has_flood_self inside p⟩, ?_, ?_⟩
  · intro q hq
    exact (h q).mp (inside_of_has_flood hinside hq)
  · intro x hx y hy
    have hxy : (flood inside x).has y = true := by
      rw [flood_eq hinside hx]
      exact hy
    -- Each step of the way from `x` stays in the flood of `x`, which is the flood of `p`.
    induction has_flood.mp hxy with
    | refl => exact .refl
    | @tail y z hway hstep ih =>
      have hxy := has_flood.mpr hway
      have hxz := has_flood.mpr (hway.tail hstep)
      rw [flood_eq hinside hx] at hxy hxz
      exact (ih hxy (has_flood.mpr hway)).tail ⟨Point.mem_neighbours.mp hstep.1, hxz⟩

theorem IsJoined.has_flood (h : IsJoined good s) (hinside : ∀ p, inside p = true ↔ good p)
    (hp : p ∈ s) (hq : q ∈ s) : (flood inside p).has q = true := by
  rw [PointSet.has_flood]
  have hway := h.joined p hp q hq
  clear hq
  induction hway with
  | refl => exact .refl inside p
  | tail _ hstep ih =>
    exact ih.step (Point.mem_neighbours.mpr hstep.1) ((hinside _).mpr (h.good _ hstep.2))

/-- The components that the search finds are the maximal joined sets. -/
theorem isComponent_iff (hinside : ∀ p, inside p = true ↔ good p) :
    IsComponent good s ↔ ∃ t ∈ components inside, s = t.points := by
  constructor
  · intro h
    obtain ⟨p, hp⟩ := h.prop.nonempty
    have hgood := h.prop.good p hp
    have hsub : s ⊆ (flood inside p).points := fun q hq => h.prop.has_flood hinside hp hq
    refine ⟨flood inside p, mem_components.mpr ⟨p, (hinside p).mpr hgood, rfl⟩, ?_⟩
    exact Set.Subset.antisymm hsub (h.2 (isJoined_flood hinside hgood) hsub)
  · rintro ⟨t, ht, rfl⟩
    obtain ⟨p, hp, rfl⟩ := mem_components.mp ht
    refine ⟨isJoined_flood hinside ((hinside p).mp hp), ?_⟩
    intro u hu hsub q hq
    exact hu.has_flood hinside (hsub (has_flood_self inside p)) hq

/-! ## Every point in one component -/

theorem nodup_filter_all (f : Point → Bool) : (Point.all.filter f).Nodup :=
  (List.nodup_finRange pointCount).filter f

/-- Component by component one lists the points inside, each of them once. -/
theorem flatMap_components (inside : Point → Bool) :
    ((components inside).flatMap toList).Perm (Point.all.filter inside) := by
  have hnodup : ((components inside).flatMap toList).Nodup := by
    rw [List.nodup_flatMap]
    refine ⟨fun t _ => nodup_filter_all t.has, (components_apart inside).imp ?_⟩
    intro t u happart p ht hu
    exact happart p ⟨mem_toList.mp ht, mem_toList.mp hu⟩
  rw [List.perm_ext_iff_of_nodup hnodup (nodup_filter_all inside)]
  intro p
  rw [List.mem_flatMap, List.mem_filter]
  constructor
  · rintro ⟨t, ht, hp⟩
    obtain ⟨start, hstart, rfl⟩ := mem_components.mp ht
    exact ⟨Point.mem_all p, inside_of_has_flood hstart (mem_toList.mp hp)⟩
  · rintro ⟨-, hp⟩
    exact ⟨flood inside p, mem_components.mpr ⟨p, hp, rfl⟩, mem_toList.mpr (has_flood_self inside p)⟩

/-- A sum over the points inside is a sum over the components. -/
theorem sum_components (inside : Point → Bool) (f : Point → Int) :
    ((components inside).map fun t => (t.toList.map f).sum).sum =
      ((Point.all.filter inside).map f).sum := by
  calc ((components inside).map fun t => (t.toList.map f).sum).sum
      = (((components inside).flatMap toList).map f).sum := by
        rw [List.map_flatMap, List.flatMap_def, List.sum_flatten, List.map_map]
        rfl
    _ = ((Point.all.filter inside).map f).sum := ((flatMap_components inside).map f).sum_eq

end PointSet

end Goban
