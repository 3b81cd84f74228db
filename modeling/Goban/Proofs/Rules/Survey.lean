import Mathlib.Data.Bool.Count
import Goban.Board.Area
import Goban.Proofs.Rules.Components

/-!
# One scan surveys every connected empty set once

`areaBalance` passes over the points once, and its walks share the marks of the points that were
seen. A walk from an empty point without a mark finds its whole connected set, and nothing of it has
been marked before (`Board.survey_eq`): what is marked is a union of such sets at any time of the
scan. So the scan adds up the stones and the connected empty sets (`Board.areaBalance_eq`).
-/

namespace Goban

namespace PointSet

variable {inside : Point → Bool} {s t : PointSet} {p : Point}

theorem count_add_missing (s : PointSet) : s.count + s.missing = pointCount := by
  have h := List.count_false_add_count_true s.marks.toList
  rw [Vector.count_toList, Vector.count_toList, Vector.length_toList] at h
  exact (Nat.add_comm _ _).trans h

theorem count_union (happart : Apart s t) : (s.union t).count = s.count + t.count := by
  simp only [← length_toList, toList]
  induction Point.all with
  | nil => rfl
  | cons p rest ih =>
    have hp := happart p
    simp only [List.filter_cons, has_union]
    cases hs : s.has p <;> cases ht : t.has p
    · simpa using ih
    · simp only [Bool.or_true, Bool.false_eq_true, if_true, if_false, List.length_cons, ih]
      omega
    · simp only [Bool.or_false, Bool.false_eq_true, if_true, if_false, List.length_cons, ih]
      omega
    · exact absurd ⟨hs, ht⟩ hp

/-- What is marked cannot be left through points inside. -/
def ClosedIn (inside : Point → Bool) (s : PointSet) : Prop :=
  ∀ q, s.has q = true → ∀ r ∈ q.neighbours, inside r = true → s.has r = true

/-- From a point without a mark, a search that keeps to what is not marked yet finds what a search
of its own would find. -/
theorem ClosedIn.spread_insert (hclosed : s.ClosedIn inside) (p : Point) :
    spread inside [p] (s.insert p) = s.union (flood inside p) := by
  apply PointSet.ext
  intro q
  rw [Bool.eq_iff_iff, has_union, Bool.or_eq_true, has_flood]
  constructor
  · refine spread_sound (P := fun q => s.has q = true ∨ Linked inside p q) ?_ _ _ ?_ ?_ q
    · rintro q r (hq | hq) hr hin
      · exact .inl (hclosed q hq r hr hin)
      · exact .inr (hq.step hr hin)
    · intro q hq
      rw [List.mem_singleton.mp hq]
      exact .inr (.refl _ _)
    · intro q hq
      rw [has_insert, Bool.or_eq_true, beq_iff_eq] at hq
      rcases hq with rfl | hq
      · exact .inr (.refl _ _)
      · exact .inl hq
  · rintro (hq | hq)
    · apply spread_mono
      rw [has_insert, hq, Bool.or_true]
    · induction hq with
      | refl =>
        apply spread_mono
        rw [has_insert, beq_self_eq_true, Bool.true_or]
      | tail _ hstep ih =>
        refine spread_closed _ _ (fun q hq => ?_) ih hstep.1 hstep.2
        rw [has_insert, Bool.or_eq_true, beq_iff_eq] at hq
        rcases hq with rfl | hq
        · exact .inl List.mem_cons_self
        · refine .inr fun r hr hin => ?_
          rw [has_insert, hclosed q hq r hr hin, Bool.or_true]

/-- Nothing that is marked is found from a point without a mark: from there one would come back. -/
theorem ClosedIn.apart_flood (hclosed : s.ClosedIn inside) (hp : inside p = true)
    (hnew : s.has p = false) : Apart s (flood inside p) := by
  rintro q ⟨hq, hflood⟩
  have hback := (has_flood.mp hflood).symm hp
  have hmarked : s.has p = true := by
    clear hnew hflood hp
    induction hback with
    | refl => exact hq
    | tail _ hstep ih => exact hclosed _ ih _ hstep.1 hstep.2
  rw [hnew] at hmarked
  cases hmarked

/-- The sets that were found are marked as a whole. -/
theorem Found.closedIn {ps : List Point} {found : List PointSet × PointSet}
    (h : Found inside ps found) : found.2.ClosedIn inside := by
  intro q hq r hr hin
  obtain ⟨s, hs, hsq⟩ := (h.seen q).mp hq
  obtain ⟨start, -, rfl⟩ := h.flood s hs
  refine (h.seen r).mpr ⟨_, hs, ?_⟩
  rw [has_flood] at hsq ⊢
  exact hsq.step hr hin

end PointSet

namespace Board

variable {b : Board} {p : Point} {stack : List Point} {seen : PointSet} {met : Survey}

/-- The connected sets of empty points. -/
def emptyRegions (b : Board) : List PointSet := PointSet.components fun p => b[p].isNone

/-- What one finds on a walk through a whole set of points. -/
def surveyOf (b : Board) (region : PointSet) : Survey :=
  ⟨region.count, b.borders region .black, b.borders region .white⟩

/-- What a connected empty set adds to black's balance. -/
def regionBalance (b : Board) (region : PointSet) : Int := (b.surveyOf region).balance

namespace Survey

/-- Whether a stone of the color was met. -/
def meets (s : Survey) : Color → Bool
  | .black => s.black
  | .white => s.white

theorem meets_add (b : Board) (p : Point) (s : Survey) (color : Color) :
    (s.add b p).meets color = (s.meets color || p.neighbours.any fun q => b[q] == some color) := by
  cases color <;> rfl

theorem ext_meets {s t : Survey} (hsize : s.size = t.size)
    (hmeets : ∀ color, s.meets color = t.meets color) : s = t := by
  obtain ⟨size, black, white⟩ := s
  obtain ⟨size', black', white'⟩ := t
  obtain rfl : size = size' := hsize
  obtain rfl : black = black' := hmeets .black
  obtain rfl : white = white' := hmeets .white
  rfl

end Survey

/-! ## One walk -/

theorem seen_survey (stack : List Point) (seen : PointSet) (met : Survey) :
    (b.survey stack seen met).2 = PointSet.spread (fun q => b[q].isNone) stack seen := by
  induction stack, seen, met using survey.induct b with
  | case1 seen met => rw [survey, PointSet.spread]
  | case2 seen met p rest next ih =>
    rw [survey, PointSet.spread]
    exact ih

/-- Each point is counted when it is taken from the stack. -/
theorem size_survey (stack : List Point) (seen : PointSet) (met : Survey) :
    (b.survey stack seen met).1.size + (b.survey stack seen met).2.missing =
      met.size + stack.length + seen.missing := by
  induction stack, seen, met using survey.induct b with
  | case1 seen met =>
    rw [survey]
    rfl
  | case2 seen met p rest next ih =>
    have hmeasure := PointSet.push_measure (fun q => b[q].isNone) p.neighbours (rest, seen)
    have hsize : (met.add b p).size = met.size + 1 := rfl
    rw [survey, ih, List.length_cons]
    simp only [next] at *
    omega

/-- The colors met are those next to the points of the stack and to the points newly marked. -/
theorem meets_survey (stack : List Point) (seen : PointSet) (met : Survey) (color : Color) :
    (b.survey stack seen met).1.meets color = true ↔ met.meets color = true ∨
      ∃ q, (q ∈ stack ∨ (b.survey stack seen met).2.has q = true ∧ seen.has q = false) ∧
        (q.neighbours.any fun r => b[r] == some color) = true := by
  induction stack, seen, met using survey.induct b with
  | case1 seen met =>
    rw [survey]
    constructor
    · exact .inl
    · rintro (h | ⟨q, hq | ⟨hq, hnew⟩, -⟩)
      · exact h
      · cases hq
      · exact absurd (hq.symm.trans hnew) Bool.true_eq_false_eq_False.elim
  | case2 seen met p rest next ih =>
    have hgrows : ∀ q, next.2.has q = true →
        (b.survey next.1 next.2 (met.add b p)).2.has q = true := by
      intro q hq
      rw [seen_survey]
      exact PointSet.spread_mono _ _ hq
    have hkeeps : ∀ q, seen.has q = true → next.2.has q = true :=
      fun q hq => (PointSet.has_push _ _ q).mpr (.inl hq)
    have hpush : ∀ q, q ∈ next.1 ↔ q ∈ rest ∨ next.2.has q = true ∧ seen.has q = false :=
      fun q => PointSet.mem_push _ _ q
    rw [survey, ih, Survey.meets_add, Bool.or_eq_true, or_assoc]
    refine or_congr_right ⟨?_, ?_⟩
    · rintro (h | ⟨q, hq | ⟨hq, hnew⟩, h⟩)
      · exact ⟨p, .inl List.mem_cons_self, h⟩
      · rcases (hpush q).mp hq with hq | ⟨hq, hnew⟩
        · exact ⟨q, .inl (List.mem_cons_of_mem _ hq), h⟩
        · exact ⟨q, .inr ⟨hgrows q hq, hnew⟩, h⟩
      · refine ⟨q, .inr ⟨hq, ?_⟩, h⟩
        rw [← Bool.not_eq_true] at hnew ⊢
        exact fun hseen => hnew (hkeeps q hseen)
    · rintro ⟨q, hq | ⟨hq, hnew⟩, h⟩
      · rcases List.mem_cons.mp hq with rfl | hq
        · exact .inl h
        · exact .inr ⟨q, .inl ((hpush q).mpr (.inl hq)), h⟩
      · refine .inr ⟨q, ?_, h⟩
        cases hnext : next.2.has q with
        | true => exact .inl ((hpush q).mpr (.inr ⟨hnext, hnew⟩))
        | false => exact .inr ⟨hq, rfl⟩

section

variable (hclosed : seen.ClosedIn fun q => b[q].isNone)

include hclosed

theorem seen_survey_start :
    (b.survey [p] (seen.insert p) .start).2 = seen.union (.flood (fun q => b[q].isNone) p) := by
  rw [seen_survey, hclosed.spread_insert]

variable (hp : b[p].isNone = true) (hnew : seen.has p = false)

include hp hnew

theorem size_survey_start : (b.survey [p] (seen.insert p) .start).1.size =
    (PointSet.flood (fun q => b[q].isNone) p).count := by
  have hsize := b.size_survey [p] (seen.insert p) .start
  have hmissing := PointSet.missing_insert hnew
  have hcount := PointSet.count_union (hclosed.apart_flood hp hnew)
  have htotal := seen.count_add_missing
  have htotal' := (seen.union (.flood (fun q => b[q].isNone) p)).count_add_missing
  have hstart : Survey.start.size = 0 := rfl
  rw [seen_survey_start hclosed, List.length_singleton, hstart] at hsize
  omega

theorem meets_survey_start (color : Color) :
    (b.survey [p] (seen.insert p) .start).1.meets color =
      b.borders (.flood (fun q => b[q].isNone) p) color := by
  have hstart : Survey.start.meets color = false := by cases color <;> rfl
  rw [Bool.eq_iff_iff, meets_survey, seen_survey_start hclosed, hstart, borders,
    PointSet.any_eq_true]
  simp only [Bool.false_eq_true, false_or]
  refine exists_congr fun q => and_congr_left fun _ => ?_
  rw [List.mem_singleton, PointSet.has_union, PointSet.has_insert, Bool.or_eq_true,
    Bool.or_eq_false_iff, beq_eq_false_iff_ne]
  constructor
  · rintro (rfl | ⟨hq | hq, -, hfresh⟩)
    · exact PointSet.has_flood_self _ q
    · exact absurd (hq.symm.trans hfresh) Bool.true_eq_false_eq_False.elim
    · exact hq
  · intro hq
    by_cases hqp : q = p
    · exact .inl hqp
    · refine .inr ⟨.inr hq, fun h => hqp h.symm, ?_⟩
      rw [← Bool.not_eq_true]
      exact fun hmarked => hclosed.apart_flood hp hnew q ⟨hmarked, hq⟩

/-- A walk from an empty point without a mark finds its connected set, and marks it. -/
theorem survey_eq : b.survey [p] (seen.insert p) .start =
    (b.surveyOf (.flood (fun q => b[q].isNone) p),
      seen.union (.flood (fun q => b[q].isNone) p)) := by
  refine Prod.ext (Survey.ext_meets (size_survey_start hclosed hp hnew) fun color => ?_)
    (seen_survey_start hclosed)
  rw [meets_survey_start hclosed hp hnew]
  cases color <;> rfl

end

/-! ## The scan -/

/-- What was scanned so far: the stones, and the connected empty sets found. -/
theorem foldl_scan (ps : List Point) :
    ps.foldl b.scan (0, .empty) =
      ((ps.map fun p => stoneBalance b[p]).sum +
          ((ps.foldl (PointSet.visit fun q => b[q].isNone) ([], .empty)).1.map b.regionBalance).sum,
        (ps.foldl (PointSet.visit fun q => b[q].isNone) ([], .empty)).2) := by
  induction ps using List.reverseRecOn with
  | nil => rfl
  | append_singleton ps p ih =>
    have hfound := PointSet.found_foldl (fun q => b[q].isNone) ps
    simp only [List.foldl_append, List.foldl_cons, List.foldl_nil, ih]
    generalize ps.foldl (PointSet.visit fun q => b[q].isNone) ([], .empty) = found at *
    simp only [List.map_append, List.map_cons, List.map_nil, List.sum_append, List.sum_singleton]
    cases hp : b[p] with
    | some color =>
      have hvisit : PointSet.visit (fun q => b[q].isNone) found p = found := by
        simp [PointSet.visit, hp]
      rw [hvisit]
      refine Prod.ext ?_ ?_ <;> simp only [scan, hp]
      omega
    | none =>
      cases hmarked : found.2.has p with
      | true =>
        have hvisit : PointSet.visit (fun q => b[q].isNone) found p = found := by
          simp [PointSet.visit, hmarked]
        rw [hvisit]
        refine Prod.ext ?_ ?_ <;> simp [scan, hp, hmarked, stoneBalance]
      | false =>
        have hempty : b[p].isNone = true := by rw [hp]; rfl
        have hvisit : PointSet.visit (fun q => b[q].isNone) found p =
            (.flood (fun q => b[q].isNone) p :: found.1,
              found.2.union (.flood (fun q => b[q].isNone) p)) := by
          simp [PointSet.visit, hp, hmarked]
        rw [hvisit]
        refine Prod.ext ?_ ?_ <;> simp only [scan, hp, hmarked, survey_eq hfound.closedIn hempty hmarked,
          Bool.false_eq_true, if_false]
        simp only [List.map_cons, List.sum_cons, stoneBalance, regionBalance]
        omega

/-- The stones and the connected empty sets make up the balance. -/
theorem areaBalance_eq (b : Board) :
    b.areaBalance = (Point.all.map fun p => stoneBalance b[p]).sum +
      (b.emptyRegions.map b.regionBalance).sum := by
  rw [areaBalance, foldl_scan, emptyRegions, PointSet.components_eq, List.map_reverse,
    List.sum_reverse]

end Board

end Goban
