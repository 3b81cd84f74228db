import Goban.Point

/-!
# Sets of points

A set of points is a mark for each point of the board. Two sets are equal when they have the same
members, so a set found by one search can be compared with a set found by another.

`flood` is the one search of this library: it grows a set from a start point through the points
that satisfy a condition, and `components` lists the sets that it finds. Chains of stones, empty
areas and enclosed regions are all components of this kind.
-/

namespace Goban

/-- A set of points of the board. -/
structure PointSet where
  marks : Vector Bool pointCount
deriving DecidableEq

namespace PointSet

/-- The set without a point. -/
def empty : PointSet := ⟨Vector.replicate pointCount false⟩

/-- Whether a point belongs to the set. -/
@[inline] def has (s : PointSet) (p : Point) : Bool := s.marks[p]

/-- The set with one more point. -/
@[inline] def insert (s : PointSet) (p : Point) : PointSet := ⟨s.marks.set p true p.isLt⟩

/-- The points that satisfy a condition. -/
@[inline] def ofPred (f : Point → Bool) : PointSet := ⟨Vector.ofFn f⟩

/-- The members in increasing order. -/
def toList (s : PointSet) : List Point := Point.all.filter s.has

/-- The number of members. -/
def count (s : PointSet) : Nat := s.marks.count true

/-- The number of points that are no members. -/
def missing (s : PointSet) : Nat := s.marks.count false

/-- The points of either set. -/
def union (s t : PointSet) : PointSet := ofPred fun p => s.has p || t.has p

/-- Whether every member satisfies a condition. -/
@[inline] def all (s : PointSet) (f : Point → Bool) : Bool := Point.all.all fun p => !s.has p || f p

/-- Whether some member satisfies a condition. -/
@[inline] def any (s : PointSet) (f : Point → Bool) : Bool := Point.all.any fun p => s.has p && f p

@[ext] theorem ext {s t : PointSet} (h : ∀ p, s.has p = t.has p) : s = t := by
  obtain ⟨s⟩ := s
  obtain ⟨t⟩ := t
  congr 1
  exact Vector.ext fun i hi => h ⟨i, hi⟩

@[simp] theorem has_empty (p : Point) : empty.has p = false := by
  simp [empty, has, Point.getElem_eq]

@[simp] theorem has_ofPred (f : Point → Bool) (p : Point) : (ofPred f).has p = f p := by
  simp [ofPred, has, Point.getElem_eq]

@[simp] theorem has_insert (s : PointSet) (p q : Point) :
    (s.insert p).has q = (p == q || s.has q) := by
  simp only [insert, has, Point.getElem_eq, Vector.getElem_set]
  by_cases h : p = q
  · simp [h]
  · simp [h, Fin.val_inj]

@[simp] theorem has_union (s t : PointSet) (p : Point) :
    (s.union t).has p = (s.has p || t.has p) := by simp [union]

@[simp] theorem mem_toList {s : PointSet} {p : Point} : p ∈ s.toList ↔ s.has p = true := by
  simp [toList]

/-- A new member leaves one point fewer outside. -/
theorem missing_insert {s : PointSet} {p : Point} (h : s.has p = false) :
    (s.insert p).missing + 1 = s.missing := by
  have hp : s.marks[p.val] = false := h
  have hpos : 0 < s.marks.count false :=
    Vector.count_pos_iff.mpr (hp ▸ Vector.getElem_mem p.isLt)
  simp only [missing, insert, Vector.count_set, hp]
  simp
  omega

/-! ## Flood fill -/

/-- Puts the points of a list that satisfy `inside` and are not marked yet on the stack, and marks
them. -/
def push (inside : Point → Bool) : List Point → List Point × PointSet → List Point × PointSet
  | [], found => found
  | q :: rest, (stack, seen) =>
    if inside q && !seen.has q then push inside rest (q :: stack, seen.insert q)
    else push inside rest (stack, seen)

/-- What is pushed was missing before, so stack and missing points together stay the same. -/
theorem push_measure (inside : Point → Bool) (qs : List Point) (found : List Point × PointSet) :
    (push inside qs found).1.length + (push inside qs found).2.missing =
      found.1.length + found.2.missing := by
  induction qs generalizing found with
  | nil => rfl
  | cons q rest ih =>
    obtain ⟨stack, seen⟩ := found
    rw [push]
    split
    · rename_i h
      have hq : seen.has q = false := by simp_all
      rw [ih]
      have := missing_insert hq
      simp only [List.length_cons]
      omega
    · exact ih _

/-- Works off the stack: each point on it is left for its unmarked neighbours inside. -/
def spread (inside : Point → Bool) (stack : List Point) (seen : PointSet) : PointSet :=
  match stack with
  | [] => seen
  | p :: rest =>
    let found := push inside p.neighbours (rest, seen)
    spread inside found.1 found.2
termination_by stack.length + seen.missing
decreasing_by
  have := push_measure inside p.neighbours (rest, seen)
  simp only [List.length_cons] at *
  omega

/-- The points that can be reached from `start` by steps to neighbours that satisfy `inside`; the
start itself belongs to them whether or not it satisfies the condition. -/
def flood (inside : Point → Bool) (start : Point) : PointSet :=
  spread inside [start] (empty.insert start)

/-- The connected sets of points that satisfy `inside`, in the order of their first points. -/
def components (inside : Point → Bool) : List PointSet :=
  (Point.all.foldl (fun (found : List PointSet × PointSet) p =>
    if inside p && !found.2.has p then
      let component := flood inside p
      (component :: found.1, found.2.union component)
    else found) ([], empty)).1.reverse

end PointSet

end Goban
