import Mathlib.Data.Set.Card
import Goban.Board
import Goban.Proofs.Rules.Flood

/-!
# A walk through a chain meets each stone and each liberty once

`Board.gather` works off a stack and keeps two sets of marks. At any time the marked stones are those
on the stack and those it has met, each of them once (`PointSet.Marked`), and the marked empty points
are the neighbours of the stones it has met, as many as it has counted (`Board.Gathered.Counted`). A
step keeps both (`PointSet.Marked.push`, `Board.Gathered.Counted.add`), and so does a whole walk
(`Board.marked_gather`, `Board.counted_gather`). When the stack is empty the stones met are those
that a flood reaches, which are the stones joined to the first one (`Board.group_exact`).
-/

namespace Goban

namespace PointSet

variable {inside : Point → Bool} {s seen : PointSet} {stack done : List Point} {p q : Point}

/-! ## Members counted -/

theorem length_toList (s : PointSet) : s.toList.length = s.count := by
  have hmarks : s.marks.toList = (List.finRange pointCount).map s.has := by
    apply List.ext_getElem (by simp)
    intro i hi hi'
    simp [has, Point.getElem_eq]
  rw [count, ← Vector.count_toList, hmarks, List.count, List.countP_map, toList, Point.all,
    List.countP_eq_length_filter]
  congr 1
  apply List.filter_congr
  intro p _
  simp

theorem nodup_toList (s : PointSet) : s.toList.Nodup := (List.nodup_finRange pointCount).filter _

theorem count_eq_ncard (s : PointSet) : s.count = {p | s.has p = true}.ncard := by
  have hset : {p | s.has p = true} = (s.toList.toFinset : Set Point) := by
    ext p
    simp
  rw [hset, Set.ncard_coe_finset, List.toFinset_card_of_nodup s.nodup_toList, length_toList]

/-- A new member is one more. -/
theorem count_insert (h : s.has p = false) : (s.insert p).count = s.count + 1 := by
  have hp : s.marks[p.val] = false := h
  simp [count, insert, Vector.count_set, hp]

/-! ## Marks of a stack -/

/-- The marks are those of the points on the stack and of the points done, and none of them is there
twice. -/
structure Marked (stack done : List Point) (seen : PointSet) : Prop where
  nodup : (stack ++ done).Nodup
  has : ∀ q, seen.has q = true ↔ q ∈ stack ++ done

theorem marked_start (p : Point) : Marked [p] [] (empty.insert p) where
  nodup := List.nodup_singleton p
  has q := by
    rw [has_insert, has_empty, Bool.or_false, beq_iff_eq, List.append_nil, List.mem_singleton,
      eq_comm]

namespace Marked

/-- A point that was not marked comes to the stack. -/
theorem cons (h : Marked stack done seen) (hq : seen.has q = false) :
    Marked (q :: stack) done (seen.insert q) := by
  refine ⟨List.nodup_cons.mpr ⟨?_, h.nodup⟩, fun r => ?_⟩
  · intro hmem
    rw [(h.has q).mpr hmem] at hq
    cases hq
  · rw [has_insert, Bool.or_eq_true, beq_iff_eq, h.has, List.cons_append, List.mem_cons,
      @eq_comm _ q r]

theorem push (h : Marked stack done seen) (qs : List Point) :
    Marked (push inside qs (stack, seen)).1 done (push inside qs (stack, seen)).2 := by
  induction qs generalizing stack seen with
  | nil => exact h
  | cons q rest ih =>
    rw [PointSet.push]
    split
    · rename_i hq
      simp only [Bool.and_eq_true, Bool.not_eq_true'] at hq
      exact ih (h.cons hq.2)
    · exact ih h

/-- The point on top of the stack is done. -/
theorem take (h : Marked (p :: stack) done seen) : Marked stack (p :: done) seen := by
  have hperm : (p :: stack ++ done).Perm (stack ++ p :: done) := List.perm_middle.symm
  exact ⟨hperm.nodup_iff.mp h.nodup, fun q => (h.has q).trans hperm.mem_iff⟩

end Marked

end PointSet

namespace Board

variable {b : Board} {inside : Point → Bool} {stack : List Point} {seen : PointSet}
  {met : Gathered} {p q : Point} {color : Color}

namespace Gathered

/-! ## Liberties counted -/

/-- The marked points are the empty neighbours of the stones met, and their number is counted. -/
structure Counted (b : Board) (met : Gathered) : Prop where
  free : ∀ l, met.free.has l = true ↔ b[l] = none ∧ ∃ s ∈ met.stones, l ∈ s.neighbours
  liberties : met.liberties = met.free.count

theorem counted_start (b : Board) : Counted b start where
  free := by simp [start]
  liberties := by simp [start, PointSet.count, PointSet.empty, Vector.count_replicate]

theorem touch_cases (b : Board) (met : Gathered) (l : Point) :
    (b[l] = none ∧ met.free.has l = false ∧ met.touch b l =
      { met with free := met.free.insert l, liberties := met.liberties + 1 }) ∨
    ((b[l] = none → met.free.has l = true) ∧ met.touch b l = met) := by
  unfold touch
  split
  · rename_i h
    simp only [Bool.and_eq_true, Option.isNone_iff_eq_none, Bool.not_eq_true'] at h
    exact .inl ⟨h.1, h.2, rfl⟩
  · rename_i h
    refine .inr ⟨fun hl => ?_, rfl⟩
    simpa [hl] using h

@[simp] theorem stones_touch (b : Board) (met : Gathered) (l : Point) :
    (met.touch b l).stones = met.stones := by
  rcases touch_cases b met l with ⟨-, -, h⟩ | ⟨-, h⟩ <;> rw [h]

theorem has_free_touch {l x : Point} :
    (met.touch b l).free.has x = true ↔ met.free.has x = true ∨ b[x] = none ∧ x = l := by
  rcases touch_cases b met l with ⟨hl, -, h⟩ | ⟨hold, h⟩
  · rw [h, PointSet.has_insert, Bool.or_eq_true, beq_iff_eq, or_comm]
    refine or_congr_right ⟨?_, fun hx => hx.2.symm⟩
    rintro rfl
    exact ⟨hl, rfl⟩
  · rw [h]
    refine ⟨.inl, ?_⟩
    rintro (hx | ⟨hx, rfl⟩)
    · exact hx
    · exact hold hx

theorem liberties_touch (h : met.liberties = met.free.count) (l : Point) :
    (met.touch b l).liberties = (met.touch b l).free.count := by
  rcases touch_cases b met l with ⟨-, hnew, h'⟩ | ⟨-, h'⟩
  · rw [h', PointSet.count_insert hnew, ← h]
  · rw [h', h]

theorem stones_foldl_touch (ls : List Point) (met : Gathered) :
    (ls.foldl (touch b) met).stones = met.stones := by
  induction ls generalizing met with
  | nil => rfl
  | cons l rest ih => rw [List.foldl_cons, ih, stones_touch]

theorem has_free_foldl_touch {x : Point} (ls : List Point) (met : Gathered) :
    (ls.foldl (touch b) met).free.has x = true ↔
      met.free.has x = true ∨ b[x] = none ∧ x ∈ ls := by
  induction ls generalizing met with
  | nil => simp
  | cons l rest ih =>
    rw [List.foldl_cons, ih, has_free_touch, List.mem_cons, and_or_left, or_assoc]

theorem liberties_foldl_touch (ls : List Point) (h : met.liberties = met.free.count) :
    (ls.foldl (touch b) met).liberties = (ls.foldl (touch b) met).free.count := by
  induction ls generalizing met with
  | nil => exact h
  | cons l rest ih => exact ih (liberties_touch h l)

@[simp] theorem stones_add (b : Board) (p : Point) (met : Gathered) :
    (met.add b p).stones = p :: met.stones := stones_foldl_touch _ _

/-- One more stone brings the empty points next to it that were not marked before. -/
theorem Counted.add (h : met.Counted b) (p : Point) : (met.add b p).Counted b := by
  refine ⟨fun l => ?_, liberties_foldl_touch _ h.liberties⟩
  rw [stones_add, Gathered.add, has_free_foldl_touch]
  simp only [h.free, List.mem_cons, exists_eq_or_imp, and_or_left]
  exact or_comm

end Gathered

/-! ## The walk -/

/-- When the stack is worked off, the stones met are the points that a spread marks. -/
theorem marked_gather (b : Board) (inside : Point → Bool)
    (h : PointSet.Marked stack met.stones seen) :
    PointSet.Marked [] (b.gather inside stack seen met).stones
      (PointSet.spread inside stack seen) := by
  induction stack, seen, met using gather.induct b inside with
  | case1 seen met =>
    rw [gather, PointSet.spread]
    exact h
  | case2 seen met p rest next ih =>
    rw [gather, PointSet.spread]
    apply ih
    rw [Gathered.stones_add]
    exact h.take.push p.neighbours

theorem counted_gather (h : met.Counted b) : (b.gather inside stack seen met).Counted b := by
  induction stack, seen, met using gather.induct b inside with
  | case1 seen met =>
    rw [gather]
    exact h
  | case2 seen met p rest next ih =>
    rw [gather]
    exact ih (h.add p)

/-! ## Groups -/

/-- What a group is read off: a walk that has met each stone of the chain once. -/
theorem exists_gathered (b : Board) (p : Point) : ∃ met : Gathered,
    b.group p = (met.stones.reverse, met.liberties) ∧ met.stones.Nodup ∧
      (∀ q, q ∈ met.stones ↔ (b.chain p).has q = true) ∧ met.Counted b := by
  have hstart : PointSet.Marked [p] Gathered.start.stones (PointSet.empty.insert p) :=
    PointSet.marked_start p
  have h := b.marked_gather (fun q => b[q] == b[p]) hstart
  exact ⟨_, rfl, h.nodup, fun q => (h.has q).symm, counted_gather (Gathered.counted_start b)⟩

theorem nodup_group (b : Board) (p : Point) : (b.group p).1.Nodup := by
  obtain ⟨met, hgroup, hnodup, -⟩ := b.exists_gathered p
  rw [hgroup]
  exact List.nodup_reverse.mpr hnodup

/-- A group has the stones of the chain. -/
theorem mem_group : q ∈ (b.group p).1 ↔ (b.chain p).has q = true := by
  obtain ⟨met, hgroup, -, hmem, -⟩ := b.exists_gathered p
  rw [hgroup, List.mem_reverse, hmem]

theorem perm_group (b : Board) (p : Point) : (b.group p).1.Perm (b.chain p).toList := by
  rw [List.perm_ext_iff_of_nodup (b.nodup_group p) (PointSet.nodup_toList _)]
  intro q
  rw [mem_group, PointSet.mem_toList]

theorem length_group (b : Board) (p : Point) : (b.group p).1.length = (b.chain p).count :=
  (b.perm_group p).length_eq.trans (PointSet.length_toList _)

/-- The liberties of a group are those of the chain. -/
theorem libertyCount_eq_count (b : Board) (p : Point) :
    b.libertyCount p = (b.liberties (b.chain p)).count := by
  obtain ⟨met, hgroup, -, hmem, hcounted⟩ := b.exists_gathered p
  have hfree : met.free = b.liberties (b.chain p) := by
    apply PointSet.ext
    intro l
    rw [Bool.eq_iff_iff, hcounted.free]
    simp only [hmem, liberties, PointSet.has_ofPred, Bool.and_eq_true, Option.isNone_iff_eq_none,
      List.any_eq_true, @Point.mem_neighbours_comm l, and_comm]
  rw [libertyCount, hgroup, hcounted.liberties, hfree]

/-! ## Joined stones -/

/-- One gets from the first point to the second one over stones of the color that lie side by side. -/
def Joined (b : Board) (color : Color) : Point → Point → Prop :=
  Relation.ReflTransGen fun x y => x.Touches y ∧ b[y] = some color

theorem joined_iff_linked :
    b.Joined color p q ↔ PointSet.Linked (fun r => b[r] == some color) p q := by
  simp only [Joined, PointSet.Linked, Point.mem_neighbours, beq_iff_eq]

namespace Joined

theorem stone (h : b.Joined color p q) (hp : b[p] = some color) : b[q] = some color := by
  simpa using (joined_iff_linked.mp h).holds (by simpa using hp)

theorem symm (h : b.Joined color p q) (hp : b[p] = some color) : b.Joined color q p :=
  joined_iff_linked.mpr ((joined_iff_linked.mp h).symm (by simpa using hp))

/-- The same stones are joined to joined stones. -/
theorem iff_of_joined {r : Point} (h : b.Joined color p q) (hp : b[p] = some color) :
    b.Joined color q r ↔ b.Joined color p r :=
  ⟨h.trans, (h.symm hp).trans⟩

end Joined

theorem mem_group_iff_joined (hp : b[p] = some color) :
    q ∈ (b.group p).1 ↔ b.Joined color p q := by
  rw [mem_group, chain, PointSet.has_flood, hp, joined_iff_linked]

theorem libertyCount_eq_ncard (hp : b[p] = some color) : b.libertyCount p =
    {l : Point | b[l] = none ∧ ∃ s, b.Joined color p s ∧ s.Touches l}.ncard := by
  rw [libertyCount_eq_count, PointSet.count_eq_ncard]
  congr 1
  ext l
  show (b.liberties (b.chain p)).has l = true ↔ b[l] = none ∧ ∃ s, b.Joined color p s ∧ s.Touches l
  simp only [liberties, PointSet.has_ofPred, Bool.and_eq_true, Option.isNone_iff_eq_none,
    List.any_eq_true, ← mem_group, mem_group_iff_joined hp, @Point.mem_neighbours_comm l,
    ← Point.mem_neighbours, and_comm]

/-- The group of a stone lists the stones joined to it, each of them once, and counts the empty points
that one of them touches. It does not matter from which of its stones one begins. -/
theorem group_exact (hp : b[p] = some color) :
    (b.group p).1.Nodup ∧ (∀ q, q ∈ (b.group p).1 ↔ b.Joined color p q) ∧
      (b.group p).2 = {l : Point | b[l] = none ∧ ∃ s, b.Joined color p s ∧ s.Touches l}.ncard ∧
      ∀ q, b.Joined color p q →
        (b.group q).1.Perm (b.group p).1 ∧ (b.group q).2 = (b.group p).2 := by
  refine ⟨b.nodup_group p, fun q => mem_group_iff_joined hp, libertyCount_eq_ncard hp, ?_⟩
  intro q hjoined
  have hq : b[q] = some color := hjoined.stone hp
  constructor
  · rw [List.perm_ext_iff_of_nodup (b.nodup_group q) (b.nodup_group p)]
    intro r
    rw [mem_group_iff_joined hq, mem_group_iff_joined hp, hjoined.iff_of_joined hp]
  · show b.libertyCount q = b.libertyCount p
    simp only [libertyCount_eq_ncard hq, libertyCount_eq_ncard hp, hjoined.iff_of_joined hp]

/-- Two stones in the corner. -/
def cornerPair : Board := Vector.ofFn fun i => if i.val < 2 then some .black else none

theorem group_exact_in_corner :
    cornerPair[(0 : Point)] = some .black ∧ cornerPair.Joined .black 0 1 ∧
      (cornerPair.group 0).1.Nodup ∧
      (∀ q, q ∈ (cornerPair.group 0).1 ↔ cornerPair.Joined .black 0 q) ∧
      (cornerPair.group 0).2 = {l : Point | cornerPair[l] = none ∧
        ∃ s, cornerPair.Joined .black 0 s ∧ s.Touches l}.ncard ∧
      (cornerPair.group 1).1.Perm (cornerPair.group 0).1 ∧
      (cornerPair.group 1).2 = (cornerPair.group 0).2 := by
  have hp : cornerPair[(0 : Point)] = some .black := by decide
  have hjoined : cornerPair.Joined .black 0 1 :=
    .single ⟨Point.mem_neighbours.mp (by decide), by decide⟩
  obtain ⟨hnodup, hmem, hcount, hsame⟩ := group_exact hp
  exact ⟨hp, hjoined, hnodup, hmem, hcount, hsame 1 hjoined⟩

example : cornerPair.group 0 = ([0, 1], 3) := by cbv

end Board

end Goban
