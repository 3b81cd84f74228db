import Mathlib.Data.List.Induction
import Mathlib.Logic.Relation
import Goban.PointSet

/-!
# What a flood reaches

Main statements: `PointSet.has_flood` (a flood reaches exactly the points that are linked to its
start by steps to neighbours inside), `PointSet.mem_components` and `PointSet.components_apart`
(the components of a condition are its floods, and they have no point in common).
-/

namespace Goban

namespace Point

theorem mem_adjacentTo {p q : Point} : q ∈ p.adjacentTo ↔
    q.val + side = p.val ∨ p.val + side = q.val ∨
      (q.val + 1 = p.val ∧ p.column ≠ 0) ∨ (p.val + 1 = q.val ∧ p.column + 1 < side) := by
  have hside : side = 9 := rfl
  unfold adjacentTo
  simp only [List.mem_append]
  constructor
  · rintro (((h | h) | h) | h)
    · split at h
      · cases List.mem_singleton.mp h
        simp only
        omega
      · cases h
    · split at h
      · cases List.mem_singleton.mp h
        exact .inr (.inl rfl)
      · cases h
    · split at h
      · cases h
      · rename_i hc
        cases List.mem_singleton.mp h
        have : p.val ≠ 0 := fun h0 => hc (by simp [column, h0])
        simp only
        omega
    · split at h
      · cases List.mem_singleton.mp h
        exact .inr (.inr (.inr ⟨rfl, ‹_›⟩))
      · cases h
  · have hq := q.isLt
    rintro (h | h | ⟨h, hc⟩ | ⟨h, hc⟩)
    · refine .inl (.inl (.inl ?_))
      rw [dif_pos (by omega)]
      exact List.mem_singleton.mpr (Fin.ext (by simp only; omega))
    · refine .inl (.inl (.inr ?_))
      rw [dif_pos (by omega)]
      exact List.mem_singleton.mpr (Fin.ext (by simp only; omega))
    · refine .inl (.inr ?_)
      rw [if_neg hc]
      exact List.mem_singleton.mpr (Fin.ext (by simp only; omega))
    · refine .inr ?_
      rw [dif_pos hc]
      exact List.mem_singleton.mpr (Fin.ext (by simp only; omega))

theorem mem_neighbours_comm {p q : Point} : q ∈ p.neighbours ↔ p ∈ q.neighbours := by
  rw [neighbours_eq, neighbours_eq, mem_adjacentTo, mem_adjacentTo]
  simp only [column, side]
  omega

theorem ne_of_mem_neighbours {p q : Point} (h : q ∈ p.neighbours) : q ≠ p := by
  rintro rfl
  rw [neighbours_eq, mem_adjacentTo] at h
  simp only [side] at h
  omega

/-- Two points lie side by side in a row or in a column. -/
def Touches (p q : Point) : Prop :=
  p.row = q.row ∧ (p.column + 1 = q.column ∨ q.column + 1 = p.column) ∨
    p.column = q.column ∧ (p.row + 1 = q.row ∨ q.row + 1 = p.row)

theorem mem_neighbours {p q : Point} : q ∈ p.neighbours ↔ p.Touches q := by
  have hp := p.isLt
  have hq := q.isLt
  rw [neighbours_eq, mem_adjacentTo]
  simp only [Touches, row, column, side, pointCount] at *
  omega

end Point

namespace PointSet

variable {inside inside' : Point → Bool} {p q r start : Point}

/-! ## Linked points -/

/-- One can get from the first point to the second one by steps to neighbours inside. -/
def Linked (inside : Point → Bool) : Point → Point → Prop :=
  Relation.ReflTransGen fun p q => q ∈ p.neighbours ∧ inside q = true

namespace Linked

theorem refl (inside : Point → Bool) (p : Point) : Linked inside p p :=
  Relation.ReflTransGen.refl

theorem step (h : Linked inside p q) (hr : r ∈ q.neighbours) (hi : inside r = true) :
    Linked inside p r := h.tail ⟨hr, hi⟩

theorem trans (h : Linked inside p q) (h' : Linked inside q r) : Linked inside p r :=
  Relation.ReflTransGen.trans h h'

theorem holds (h : Linked inside p q) (hp : inside p = true) : inside q = true := by
  induction h with
  | refl => exact hp
  | tail _ hstep _ => exact hstep.2

theorem symm (h : Linked inside p q) (hp : inside p = true) : Linked inside q p := by
  induction h with
  | refl => exact .refl _ _
  | tail hab hstep ih =>
    exact trans (.step (.refl _ _) (Point.mem_neighbours_comm.mp hstep.1) (Linked.holds hab hp)) ih

/-- A way goes on where it stays inside. -/
theorem mono (h : Linked inside p q)
    (hi : ∀ r, Linked inside p r → inside r = true → inside' r = true) : Linked inside' p q := by
  induction h with
  | refl => exact .refl _ _
  | tail hab hstep ih => exact ih.step hstep.1 (hi _ (hab.tail hstep) hstep.2)

end Linked

/-! ## The stack -/

theorem has_push (qs : List Point) (found : List Point × PointSet) (p : Point) :
    (push inside qs found).2.has p = true ↔
      found.2.has p = true ∨ p ∈ qs ∧ inside p = true := by
  induction qs generalizing found with
  | nil => simp [push]
  | cons q rest ih =>
    obtain ⟨stack, seen⟩ := found
    rw [push]
    split
    · rename_i hq
      rw [ih]
      simp only [has_insert, Bool.or_eq_true, beq_iff_eq, List.mem_cons]
      simp only [Bool.and_eq_true] at hq
      constructor
      · rintro ((rfl | hp) | hp)
        · exact .inr ⟨.inl rfl, hq.1⟩
        · exact .inl hp
        · exact .inr ⟨.inr hp.1, hp.2⟩
      · rintro (hp | ⟨rfl | hp, hin⟩)
        · exact .inl (.inr hp)
        · exact .inl (.inl rfl)
        · exact .inr ⟨hp, hin⟩
    · rename_i hq
      rw [ih]
      simp only [List.mem_cons]
      constructor
      · rintro (hp | hp)
        · exact .inl hp
        · exact .inr ⟨.inr hp.1, hp.2⟩
      · rintro (hp | ⟨rfl | hp, hin⟩)
        · exact .inl hp
        · simp only [hin, Bool.true_and, Bool.not_eq_true', Bool.not_eq_false] at hq
          exact .inl hq
        · exact .inr ⟨hp, hin⟩

/-- What was not marked before is on the stack. -/
theorem mem_push (qs : List Point) (found : List Point × PointSet) (p : Point) :
    p ∈ (push inside qs found).1 ↔
      p ∈ found.1 ∨ (push inside qs found).2.has p = true ∧ found.2.has p = false := by
  induction qs generalizing found with
  | nil => simp [push]
  | cons q rest ih =>
    obtain ⟨stack, seen⟩ := found
    rw [push]
    split
    · rename_i hq
      rw [ih]
      simp only [Bool.and_eq_true, Bool.not_eq_true'] at hq
      simp only [has_insert, List.mem_cons, Bool.or_eq_false_iff, beq_eq_false_iff_ne, ne_eq]
      by_cases hp : p = q
      · subst hp
        simp only [true_or, true_iff]
        refine .inr ⟨?_, hq.2⟩
        rw [has_push]
        simp
      · simp [hp, Ne.symm hp]
    · exact ih _

/-! ## The search -/

theorem spread_sound {P : Point → Prop}
    (hstep : ∀ p q, P p → q ∈ p.neighbours → inside q = true → P q) (stack : List Point)
    (seen : PointSet) (hstack : ∀ p ∈ stack, P p) (hseen : ∀ p, seen.has p = true → P p) :
    ∀ p, (spread inside stack seen).has p = true → P p := by
  induction stack, seen using spread.induct inside with
  | case1 seen =>
    rw [spread]
    exact hseen
  | case2 seen p rest found ih =>
    rw [spread]
    have hp : P p := hstack p List.mem_cons_self
    have hfound : ∀ q, found.2.has q = true → P q := fun q hq => by
      rcases (has_push _ _ q).mp hq with hq | hq
      · exact hseen q hq
      · exact hstep p q hp hq.1 hq.2
    refine ih (fun q hq => ?_) hfound
    rcases (mem_push _ _ q).mp hq with hq | hq
    · exact hstack q (List.mem_cons_of_mem _ hq)
    · exact hfound q hq.1

theorem spread_mono (stack : List Point) (seen : PointSet) (hp : seen.has p = true) :
    (spread inside stack seen).has p = true := by
  induction stack, seen using spread.induct inside with
  | case1 seen =>
    rw [spread]
    exact hp
  | case2 seen q rest found ih =>
    rw [spread]
    exact ih ((has_push _ _ p).mpr (.inl hp))

/-- When the stack is worked off, no neighbour inside of a marked point is left out. -/
theorem spread_closed (stack : List Point) (seen : PointSet)
    (hseen : ∀ p, seen.has p = true → p ∈ stack ∨
      ∀ q ∈ p.neighbours, inside q = true → seen.has q = true)
    (hp : (spread inside stack seen).has p = true) (hq : q ∈ p.neighbours) (hin : inside q = true) :
    (spread inside stack seen).has q = true := by
  induction stack, seen using spread.induct inside with
  | case1 seen =>
    rw [spread] at hp ⊢
    exact (hseen p hp).resolve_left (List.not_mem_nil) q hq hin
  | case2 seen r rest found ih =>
    rw [spread] at hp ⊢
    refine ih (fun a ha => ?_) hp
    by_cases hold : seen.has a = true
    · rcases hseen a hold with hmem | hclosed
      · rcases List.mem_cons.mp hmem with rfl | hmem
        · exact .inr fun b hb hin => (has_push _ _ b).mpr (.inr ⟨hb, hin⟩)
        · exact .inl ((mem_push _ _ a).mpr (.inl hmem))
      · exact .inr fun b hb hin => (has_push _ _ b).mpr (.inl (hclosed b hb hin))
    · exact .inl ((mem_push _ _ a).mpr (.inr ⟨ha, by simpa using hold⟩))

/-- A flood reaches exactly the points that are linked to its start. -/
theorem has_flood : (flood inside start).has p = true ↔ Linked inside start p := by
  constructor
  · refine spread_sound (fun a b ha hb hin => ha.step hb hin) _ _
      (fun a ha => ?_) (fun a ha => ?_) p
    · rw [List.mem_singleton.mp ha]
      exact .refl _ _
    · have : start = a := by simpa using ha
      exact this ▸ .refl _ _
  · intro h
    induction h with
    | refl => exact spread_mono _ _ (by simp)
    | tail _ hstep ih =>
      refine spread_closed _ _ (fun a ha => .inl ?_) ih hstep.1 hstep.2
      have : start = a := by simpa using ha
      exact List.mem_singleton.mpr this.symm

theorem has_flood_self (inside : Point → Bool) (p : Point) : (flood inside p).has p = true :=
  has_flood.mpr (.refl _ _)

theorem inside_of_has_flood (hp : inside start = true) (h : (flood inside start).has p = true) :
    inside p = true := Linked.holds (has_flood.mp h) hp

/-- A flood that cannot leave its start has no other point. -/
theorem eq_of_has_flood (h : (flood inside start).has p = true)
    (hclosed : ∀ q ∈ start.neighbours, inside q = false) : p = start := by
  induction has_flood.mp h with
  | refl => rfl
  | tail hway hstep ih =>
    rw [ih (has_flood.mpr hway)] at hstep
    rw [hclosed _ hstep.1] at hstep
    cases hstep.2

/-- A flood is the same from each of its points. -/
theorem flood_eq (hp : inside p = true) (h : (flood inside p).has q = true) :
    flood inside q = flood inside p := by
  have hpq := has_flood.mp h
  refine PointSet.ext fun r => Bool.eq_iff_iff.mpr ?_
  rw [has_flood, has_flood]
  exact ⟨fun hr => hpq.trans hr, fun hr => (hpq.symm hp).trans hr⟩

theorem flood_congr (h : ∀ q, inside q = inside' q) (p : Point) :
    flood inside p = flood inside' p := by
  have : inside = inside' := funext h
  rw [this]

/-! ## Components -/

/-- Two sets have no point in common. -/
def Apart (s t : PointSet) : Prop := ∀ p, ¬(s.has p = true ∧ t.has p = true)

/-- What one more point adds to the components found so far. -/
def visit (inside : Point → Bool) (found : List PointSet × PointSet) (p : Point) :
    List PointSet × PointSet :=
  if inside p && !found.2.has p then (flood inside p :: found.1, found.2.union (flood inside p))
  else found

theorem components_eq (inside : Point → Bool) :
    components inside = (Point.all.foldl (visit inside) ([], empty)).1.reverse := rfl

/-- The sets found so far are floods without common points, and they cover the points seen. -/
structure Found (inside : Point → Bool) (visited : List Point) (found : List PointSet × PointSet) :
    Prop where
  flood : ∀ s ∈ found.1, ∃ p, inside p = true ∧ s = flood inside p
  seen : ∀ p, found.2.has p = true ↔ ∃ s ∈ found.1, s.has p = true
  covered : ∀ p ∈ visited, inside p = true → found.2.has p = true
  apart : found.1.Pairwise Apart

theorem Found.visit {visited : List Point} {found : List PointSet × PointSet}
    (h : Found inside visited found) (p : Point) :
    Found inside (visited ++ [p]) (visit inside found p) := by
  unfold PointSet.visit
  split
  · rename_i hp
    simp only [Bool.and_eq_true, Bool.not_eq_true'] at hp
    refine ⟨fun s hs => ?_, fun q => ?_, fun q hq hin => ?_, ?_⟩
    · rcases List.mem_cons.mp hs with rfl | hs
      · exact ⟨p, hp.1, rfl⟩
      · exact h.flood s hs
    · simp only [has_union, Bool.or_eq_true, h.seen, List.mem_cons, exists_eq_or_imp]
      exact or_comm
    · rw [has_union, Bool.or_eq_true]
      rcases List.mem_append.mp hq with hq | hq
      · exact .inl (h.covered q hq hin)
      · rw [List.mem_singleton.mp hq]
        exact .inr (has_flood_self inside p)
    · refine List.pairwise_cons.mpr ⟨fun s hs q ⟨hq, hq'⟩ => ?_, h.apart⟩
      -- A common point would link the new start with a set that was found before.
      obtain ⟨r, hr, rfl⟩ := h.flood s hs
      have hpr : (PointSet.flood inside r).has p = true := by
        rw [← flood_eq hr hq', flood_eq hp.1 hq]
        exact has_flood_self inside p
      have hseen := (h.seen p).mpr ⟨_, hs, hpr⟩
      rw [hp.2] at hseen
      cases hseen
  · rename_i hp
    refine ⟨h.flood, h.seen, fun q hq hin => ?_, h.apart⟩
    rcases List.mem_append.mp hq with hq | hq
    · exact h.covered q hq hin
    · rw [List.mem_singleton.mp hq] at hin ⊢
      simpa [hin] using hp

theorem found_foldl (inside : Point → Bool) (ps : List Point) :
    Found inside ps (ps.foldl (visit inside) ([], empty)) := by
  induction ps using List.reverseRecOn with
  | nil =>
    refine ⟨?_, fun p => ?_, ?_, List.Pairwise.nil⟩
    · intro s hs
      cases hs
    · simp
    · intro p hp
      cases hp
  | append_singleton ps p ih =>
    rw [List.foldl_append]
    exact ih.visit p

/-- The components are the floods from all points inside. -/
theorem mem_components {s : PointSet} :
    s ∈ components inside ↔ ∃ p, inside p = true ∧ s = flood inside p := by
  have h := found_foldl inside Point.all
  rw [components_eq, List.mem_reverse]
  constructor
  · exact h.flood s
  · rintro ⟨p, hp, rfl⟩
    obtain ⟨t, ht, hpt⟩ := (h.seen p).mp (h.covered p (Point.mem_all p) hp)
    obtain ⟨q, hq, rfl⟩ := h.flood t ht
    rw [flood_eq hq hpt]
    exact ht

theorem components_apart (inside : Point → Bool) : (components inside).Pairwise Apart := by
  rw [components_eq, List.pairwise_reverse]
  exact (found_foldl inside Point.all).apart.imp fun h p hp => h p hp.symm

end PointSet

end Goban
