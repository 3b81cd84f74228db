import Goban.Proofs.Rules.Groups

/-!
# Chains and their liberties

A chain is the same set from each of its points (`Board.chain_eq`), and what a stone captures are
the chains next to it that have no liberty left (`Board.has_withoutLiberty`). They are taken off one
after the other, each on the board that the ones before have left, and do not interact
(`Board.captured_capture`): a chain gets no liberty from another one of its color that is taken off
(`Board.Whole.libertyCount_remove`). A board *breathes* if every chain has a liberty. A stone that is
not put to death at once leaves a breathing board (`Board.Breathes.put`).
-/

namespace Goban

namespace PointSet

theorem all_eq_true {s : PointSet} {f : Point → Bool} :
    s.all f = true ↔ ∀ p, s.has p = true → f p = true := by
  simp only [all, List.all_eq_true, Point.mem_all, true_implies, Bool.or_eq_true, Bool.not_eq_true']
  refine forall_congr' fun p => ?_
  cases s.has p <;> simp

theorem any_eq_true {s : PointSet} {f : Point → Bool} :
    s.any f = true ↔ ∃ p, s.has p = true ∧ f p = true := by
  simp [any, List.any_eq_true]

theorem count_ne_zero {s : PointSet} : s.count ≠ 0 ↔ ∃ p, s.has p = true := by
  rw [count, ← Nat.pos_iff_ne_zero, Vector.count_pos_iff]
  constructor
  · intro h
    obtain ⟨i, hi, he⟩ := Vector.getElem_of_mem h
    exact ⟨⟨i, hi⟩, he⟩
  · rintro ⟨p, hp⟩
    have hp : s.marks[p.val] = true := hp
    exact hp ▸ Vector.getElem_mem p.isLt

theorem toList_eq_singleton {s : PointSet} {p : Point} :
    s.toList = [p] ↔ ∀ q, s.has q = true ↔ q = p := by
  constructor
  · intro h q
    rw [← mem_toList, h, List.mem_singleton]
  · intro h
    have hnodup : s.toList.Nodup := (List.nodup_finRange pointCount).filter _
    rw [← List.perm_singleton, List.perm_ext_iff_of_nodup hnodup (by simp)]
    intro q
    rw [mem_toList, h, List.mem_singleton]

theorem count_eq_one {s : PointSet} : s.count = 1 ↔ ∃ p, ∀ q, s.has q = true ↔ q = p := by
  simp only [← length_toList, List.length_eq_one_iff, toList_eq_singleton]

/-- A set with two members counts more than one. -/
theorem one_lt_count {s : PointSet} {p q : Point} (hp : s.has p = true) (hq : s.has q = true)
    (hne : p ≠ q) : 1 < s.count := by
  have hzero : s.count ≠ 0 := count_ne_zero.mpr ⟨p, hp⟩
  have hone : s.count ≠ 1 := by
    intro hone
    obtain ⟨r, hr⟩ := count_eq_one.mp hone
    exact hne (((hr p).mp hp).trans ((hr q).mp hq).symm)
  omega

/-- A set of several points has one apart from any given point. -/
theorem exists_ne_of_one_lt_count {s : PointSet} (h : 1 < s.count) (p : Point) :
    ∃ q, s.has q = true ∧ q ≠ p := by
  by_contra hno
  have hall : ∀ q, s.has q = true → q = p := by
    intro q hq
    by_contra hne
    exact hno ⟨q, hq, hne⟩
  obtain ⟨q, hq⟩ := count_ne_zero.mp (by omega : s.count ≠ 0)
  have hone : s.count = 1 := by
    refine count_eq_one.mpr ⟨p, fun r => ⟨hall r, ?_⟩⟩
    rintro rfl
    exact hall q hq ▸ hq
  omega

end PointSet

namespace Board

variable {b b' : Board} {p q r : Point} {qs : List Point} {color : Color}

theorem ext_points (h : ∀ p : Point, b[p] = b'[p]) : b = b' :=
  Vector.ext fun i hi => h ⟨i, hi⟩

/-! ## Chains -/

theorem has_chain : (b.chain p).has q = true ↔ PointSet.Linked (fun r => b[r] == b[p]) p q :=
  PointSet.has_flood

theorem has_chain_self (b : Board) (p : Point) : (b.chain p).has p = true :=
  PointSet.has_flood_self _ p

theorem getElem_of_has_chain (h : (b.chain p).has q = true) : b[q] = b[p] := by
  simpa using PointSet.inside_of_has_flood (by simp) h

/-- A chain is the same set from each of its points. -/
theorem chain_eq (h : (b.chain p).has q = true) : b.chain q = b.chain p := by
  have he := getElem_of_has_chain h
  unfold chain at h ⊢
  rw [he]
  exact PointSet.flood_eq (by simp) h

theorem has_chain_comm : (b.chain p).has q = true ↔ (b.chain q).has p = true := by
  constructor
  · intro h
    rw [chain_eq h]
    exact has_chain_self b p
  · intro h
    rw [chain_eq h]
    exact has_chain_self b q

theorem has_chain_trans (h : (b.chain p).has q = true) (h' : (b.chain q).has r = true) :
    (b.chain p).has r = true := chain_eq h ▸ h'

/-- A neighbour that holds the same is in the chain. -/
theorem has_chain_of_mem_neighbours (h : (b.chain p).has q = true) (hr : r ∈ q.neighbours)
    (he : b[r] = b[p]) : (b.chain p).has r = true :=
  has_chain.mpr ((has_chain.mp h).step hr (by simpa using he))

/-- A chain stays connected where its stones stay. -/
theorem has_chain_mono (h : (b.chain p).has q = true)
    (he : ∀ r, (b.chain p).has r = true → b'[r] = b'[p]) : (b'.chain p).has q = true :=
  has_chain.mpr ((has_chain.mp h).mono fun r hr _ => by simpa using he r (has_chain.mpr hr))

/-! ## Liberties -/

/-- The point is an empty neighbour of a stone of the chain. -/
structure IsLiberty (b : Board) (p l s : Point) : Prop where
  stone : (b.chain p).has s = true
  next : s ∈ l.neighbours
  empty : b[l] = none

theorem has_liberties {s : PointSet} :
    (b.liberties s).has p = true ↔ b[p] = none ∧ ∃ q ∈ p.neighbours, s.has q = true := by
  simp [liberties]

theorem libertyCount_ne_zero : b.libertyCount p ≠ 0 ↔ ∃ l s, b.IsLiberty p l s := by
  rw [libertyCount_eq_count, PointSet.count_ne_zero]
  refine exists_congr fun l => ?_
  rw [has_liberties]
  constructor
  · rintro ⟨hl, s, hs, hc⟩
    exact ⟨s, hc, hs, hl⟩
  · rintro ⟨s, hc, hs, hl⟩
    exact ⟨hl, s, hs, hc⟩

theorem libertyCount_of_next {l : Point} (hl : l ∈ p.neighbours) (h : b[l] = none) :
    b.libertyCount p ≠ 0 :=
  libertyCount_ne_zero.mpr ⟨l, p, has_chain_self b p, Point.mem_neighbours_comm.mp hl, h⟩

theorem libertyCount_eq (h : (b.chain p).has q = true) : b.libertyCount q = b.libertyCount p := by
  rw [libertyCount_eq_count, libertyCount_eq_count, chain_eq h]

/-- Every chain of stones has a liberty. -/
def Breathes (b : Board) : Prop := ∀ p, b[p] ≠ none → b.libertyCount p ≠ 0

/-! ## Captures -/

/-- A stone next to a point, with a chain that has no liberty. -/
structure Dies (b : Board) (color : Color) (p q : Point) : Prop where
  next : q ∈ p.neighbours
  stone : b[q] = some color
  breathless : b.libertyCount q = 0

namespace Dies

theorem no_liberty (h : b.Dies color p q) (l s : Point) : ¬ b.IsLiberty q l s :=
  fun hls => libertyCount_ne_zero.mpr ⟨l, s, hls⟩ h.breathless

/-- No neighbour of a stone that dies is empty. -/
theorem ne_none (h : b.Dies color p q) (hr : r ∈ q.neighbours) : b[r] ≠ none :=
  fun hempty => libertyCount_of_next hr hempty h.breathless

end Dies

/-- A set is made of whole chains. -/
def Whole (b : Board) (s : PointSet) : Prop :=
  ∀ q r, s.has q = true → (b.chain q).has r = true → s.has r = true

/-- The chains without a liberty of the stones of a color among some points. -/
def doomed (b : Board) (color : Color) (qs : List Point) : PointSet :=
  .ofPred fun r => qs.any fun q => b[q] == some color && b.libertyCount q == 0 && (b.chain q).has r

theorem has_doomed : (b.doomed color qs).has r = true ↔
    ∃ q ∈ qs, (b[q] = some color ∧ b.libertyCount q = 0) ∧ (b.chain q).has r = true := by
  simp [doomed]

theorem getElem_of_has_doomed (h : (b.doomed color qs).has r = true) : b[r] = some color := by
  obtain ⟨q, -, ⟨hcolor, -⟩, hr⟩ := has_doomed.mp h
  exact (getElem_of_has_chain hr).trans hcolor

theorem doomed_whole : b.Whole (b.doomed color qs) := by
  intro x y hx hy
  obtain ⟨q, hq, hdies, hqx⟩ := has_doomed.mp hx
  exact has_doomed.mpr ⟨q, hq, hdies, has_chain_trans hqx hy⟩

/-- The stones of `color` next to `p` that have no liberty, with their chains. -/
def withoutLiberty (b : Board) (color : Color) (p : Point) : PointSet :=
  b.doomed color p.neighbours

/-- What is dead is what is in the chain of a stone that dies. -/
theorem has_withoutLiberty : (b.withoutLiberty color p).has r = true ↔
    ∃ q, b.Dies color p q ∧ (b.chain q).has r = true := by
  rw [withoutLiberty, has_doomed]
  constructor
  · rintro ⟨q, hq, ⟨hcolor, hcount⟩, hr⟩
    exact ⟨q, ⟨hq, hcolor, hcount⟩, hr⟩
  · rintro ⟨q, hq, hr⟩
    exact ⟨q, hq.next, ⟨hq.stone, hq.breathless⟩, hr⟩

/-! ## Captures do not interact -/

/-- The board without the stones of a set. -/
def remove (b : Board) (s : PointSet) : Board := Vector.ofFn fun p => if s.has p then none else b[p]

@[simp] theorem getElem_remove (b : Board) (s : PointSet) (p : Point) :
    (b.remove s)[p] = if s.has p then none else b[p] := by
  simp [remove, Point.getElem_eq]

theorem getElem_takeOff (b : Board) (stones : List Point) (p : Point) :
    (b.takeOff stones)[p] = if p ∈ stones then none else b[p] := by
  induction stones generalizing b with
  | nil => rfl
  | cons q rest ih =>
    have hset : (b.takeOff (q :: rest))[p] =
        (Board.takeOff (b.set q none q.isLt) rest)[p] := rfl
    rw [hset, ih]
    by_cases hpq : p = q
    · subst hpq
      simp [Point.getElem_eq]
    · have hqp : q.val ≠ p.val := fun h => hpq (Fin.ext h.symm)
      simp [hpq, hqp, Point.getElem_eq]

variable {dead : PointSet} {done : List Point} {now : Board × List Point}

/-- A chain of stones stays the same when other chains are taken off. -/
theorem Whole.has_chain_remove (h : b.Whole dead) (hq : b[q] ≠ none) (hfree : dead.has q = false) :
    ((b.remove dead).chain q).has r = true ↔ (b.chain q).has r = true := by
  have hself : (b.remove dead)[q] = b[q] := by rw [getElem_remove, hfree, if_neg Bool.false_ne_true]
  constructor
  · intro hr
    refine has_chain_mono hr fun x hx => ?_
    have hx := getElem_of_has_chain hx
    rw [hself, getElem_remove] at hx
    split at hx
    · exact absurd hx.symm hq
    · exact hx
  · intro hr
    refine has_chain_mono hr fun x hx => ?_
    have hxfree : dead.has x = false := by
      by_contra hdead
      have hqdead := h x q ((Bool.not_eq_false _).mp hdead) (has_chain_comm.mp hx)
      rw [hfree] at hqdead
      cases hqdead
    rw [hself, getElem_remove, hxfree, if_neg Bool.false_ne_true]
    exact getElem_of_has_chain hx

/-- A chain gets no liberty from other chains of its color that are taken off: none of them lies
beside it. -/
theorem Whole.libertyCount_remove (h : b.Whole dead)
    (hcolor : ∀ x, dead.has x = true → b[x] = some color) (hq : b[q] = some color)
    (hfree : dead.has q = false) : (b.remove dead).libertyCount q = b.libertyCount q := by
  have hstone : b[q] ≠ none := by simp [hq]
  have hsame : (b.remove dead).liberties ((b.remove dead).chain q) = b.liberties (b.chain q) := by
    refine PointSet.ext fun l => ?_
    rw [Bool.eq_iff_iff, has_liberties, has_liberties]
    simp only [h.has_chain_remove hstone hfree]
    refine and_congr_left fun hnext => ?_
    obtain ⟨s, hs, hchain⟩ := hnext
    rw [getElem_remove]
    split
    · rename_i hl
      have hlq : b[l] = b[q] := (hcolor l hl).trans hq.symm
      have hjoin := has_chain_of_mem_neighbours hchain (Point.mem_neighbours_comm.mp hs) hlq
      have hqdead := h l q hl (has_chain_comm.mp hjoin)
      rw [hfree] at hqdead
      cases hqdead
    · exact Iff.rfl
  rw [libertyCount_eq_count, libertyCount_eq_count, hsame]

/-- What was captured from some neighbours, one after the other, is what is doomed among them. -/
structure Captured (b : Board) (color : Color) (done : List Point) (now : Board × List Point) :
    Prop where
  board : now.1 = b.remove (b.doomed color done)
  mem : ∀ r, r ∈ now.2 ↔ (b.doomed color done).has r = true
  nodup : now.2.Nodup

/-- A point adds its chain to the doomed ones if it is a stone of the color without a liberty. -/
theorem has_doomed_concat : (b.doomed color (done ++ [q])).has r = true ↔
    (b.doomed color done).has r = true ∨
      (b[q] = some color ∧ b.libertyCount q = 0) ∧ (b.chain q).has r = true := by
  simp only [has_doomed, List.mem_append, List.mem_singleton, or_and_right, exists_or,
    exists_eq_left]

theorem doomed_concat_of (h : b[q] = some color → b.libertyCount q = 0 →
    (b.doomed color done).has q = true) :
    b.doomed color (done ++ [q]) = b.doomed color done := by
  refine PointSet.ext fun r => ?_
  rw [Bool.eq_iff_iff, has_doomed_concat, or_iff_left_iff_imp]
  rintro ⟨⟨hcolor, hcount⟩, hr⟩
  exact doomed_whole q r (h hcolor hcount) hr

namespace Captured

theorem start (b : Board) (color : Color) : b.Captured color [] (b, []) := by
  have hnone : ∀ r, (b.doomed color []).has r = false := fun r => by simp [doomed]
  refine ⟨ext_points fun r => ?_, fun r => ?_, List.nodup_nil⟩
  · rw [getElem_remove, hnone, if_neg Bool.false_ne_true]
  · simp [hnone]

theorem stay (h : b.Captured color done now) (hq : b[q] = some color → b.libertyCount q = 0 →
    (b.doomed color done).has q = true) : b.Captured color (done ++ [q]) now := by
  refine ⟨?_, fun r => ?_, h.nodup⟩
  · rw [doomed_concat_of hq]
    exact h.board
  · rw [doomed_concat_of hq]
    exact h.mem r

/-- A doomed chain that is still on the board is the same there, and is taken off as a whole. -/
theorem takeOff (h : b.Captured color done now) (hq : b[q] = some color)
    (hcount : b.libertyCount q = 0) (hfree : (b.doomed color done).has q = false) :
    b.Captured color (done ++ [q])
      (now.1.takeOff (now.1.group q).1, now.2 ++ (now.1.group q).1) := by
  have hstone : b[q] ≠ none := by simp [hq]
  have hmem : ∀ r, r ∈ (now.1.group q).1 ↔ (b.chain q).has r = true := fun r => by
    rw [mem_group, h.board, doomed_whole.has_chain_remove hstone hfree]
  have hboth : ∀ r, r ∈ now.2 ++ (now.1.group q).1 ↔
      (b.doomed color (done ++ [q])).has r = true := fun r => by
    rw [List.mem_append, h.mem, hmem, has_doomed_concat, and_iff_right ⟨hq, hcount⟩]
  have hnow : ∀ r, now.1[r] = if (b.doomed color done).has r then none else b[r] := fun r => by
    rw [h.board, getElem_remove]
  refine ⟨ext_points fun r => ?_, hboth, ?_⟩
  · show (now.1.takeOff (now.1.group q).1)[r] = _
    have hr := hboth r
    rw [List.mem_append, h.mem] at hr
    rw [getElem_takeOff, getElem_remove, hnow]
    by_cases hgroup : r ∈ (now.1.group q).1
    · rw [if_pos hgroup, if_pos (hr.mp (.inr hgroup))]
    · rw [if_neg hgroup]
      by_cases hdoomed : (b.doomed color done).has r = true
      · rw [if_pos hdoomed, if_pos (hr.mp (.inl hdoomed))]
      · rw [if_neg hdoomed, if_neg fun hnew => (hr.mpr hnew).elim hdoomed hgroup]
  · refine h.nodup.append (now.1.nodup_group q) fun r hr hgroup => ?_
    have hqdead := doomed_whole r q ((h.mem r).mp hr) (has_chain_comm.mp ((hmem r).mp hgroup))
    rw [hfree] at hqdead
    cases hqdead

theorem next (h : b.Captured color done now) (q : Point) :
    b.Captured color (done ++ [q]) (captureNext color now q) := by
  have hnow : now.1[q] = if (b.doomed color done).has q then none else b[q] := by
    rw [h.board, getElem_remove]
  unfold captureNext
  simp only
  split
  · rename_i hcolor
    rw [hnow] at hcolor
    split at hcolor
    · cases hcolor
    · rename_i hfree
      have hfree := (Bool.not_eq_true _).mp hfree
      have hcount : (now.1.group q).2 = b.libertyCount q := by
        rw [← doomed_whole.libertyCount_remove (fun x => getElem_of_has_doomed) hcolor hfree,
          ← h.board]
        rfl
      split
      · rename_i hzero
        exact h.takeOff hcolor (hcount.symm.trans hzero) hfree
      · rename_i hpos
        exact h.stay fun _ hzero => absurd (hcount.trans hzero) hpos
  · rename_i hcolor
    refine h.stay fun hq _ => ?_
    by_contra hfree
    rw [hnow, if_neg hfree] at hcolor
    exact hcolor hq

theorem foldl (h : b.Captured color done now) (qs : List Point) :
    b.Captured color (done ++ qs) (qs.foldl (captureNext color) now) := by
  induction qs generalizing done now with
  | nil => rwa [List.append_nil]
  | cons q qs ih =>
    rw [List.append_cons]
    exact ih (h.next q)

end Captured

/-- Whatever is captured on the way, the board in the end is the one without the chains that had no
liberty in the beginning. -/
theorem captured_capture (b : Board) (color : Color) (p : Point) :
    b.Captured color p.neighbours (b.capture color p) :=
  (Captured.start b color).foldl p.neighbours

/-! ## A stone is put on the board -/

/-- The board with a stone on an empty point. -/
def place (b : Board) (color : Color) (p : Point) : Board := b.set p (some color) p.isLt

/-- What a stone captures. -/
def caught (b : Board) (color : Color) (p : Point) : PointSet :=
  (b.place color p).withoutLiberty color.other p

/-- The board after a stone and its captures. -/
def put (b : Board) (color : Color) (p : Point) : Board :=
  (b.place color p).remove (b.caught color p)

/-- The stones that a stone captures, in the order in which they are taken off. -/
def taken (b : Board) (color : Color) (p : Point) : List Point :=
  ((b.place color p).capture color.other p).2

theorem capture_place (b : Board) (color : Color) (p : Point) :
    (b.place color p).capture color.other p = (b.put color p, b.taken color p) :=
  Prod.ext (captured_capture _ color.other p).board rfl

theorem mem_taken : q ∈ b.taken color p ↔ (b.caught color p).has q = true :=
  (captured_capture _ color.other p).mem q

theorem nodup_taken (b : Board) (color : Color) (p : Point) : (b.taken color p).Nodup :=
  (captured_capture _ color.other p).nodup

theorem getElem_place (b : Board) (color : Color) (p q : Point) :
    (b.place color p)[q] = if q = p then some color else b[q] := by
  simp only [place, Point.getElem_eq, Vector.getElem_set, Fin.val_inj, eq_comm]

theorem place_self (b : Board) (color : Color) (p : Point) : (b.place color p)[p] = some color := by
  rw [getElem_place, if_pos rfl]

theorem place_of_ne (h : q ≠ p) : (b.place color p)[q] = b[q] := by rw [getElem_place, if_neg h]

/-- A stone on an empty point cuts no chain. -/
theorem has_chain_place {own : Color} (hp : b[p] = none) (hq : b[q] = some own)
    (h : (b.chain q).has r = true) : ((b.place color p).chain q).has r = true := by
  have hne : ∀ x : Point, b[x] = some own → x ≠ p := by
    rintro x hx rfl
    rw [hp] at hx
    cases hx
  apply has_chain_mono h
  intro x hx
  have hx := (getElem_of_has_chain hx).trans hq
  rw [place_of_ne (hne q hq), place_of_ne (hne x hx), hx, hq]

theorem not_caught_self (b : Board) (color : Color) (p : Point) :
    (b.caught color p).has p = false := by
  by_contra h
  have hp := getElem_of_has_doomed ((Bool.not_eq_false _).mp h)
  rw [place_self] at hp
  exact Color.ne_other _ (Option.some.inj hp)

theorem getElem_put (b : Board) (color : Color) (p q : Point) :
    (b.put color p)[q] = if (b.caught color p).has q then none else (b.place color p)[q] :=
  getElem_remove _ _ q

theorem put_self (b : Board) (color : Color) (p : Point) : (b.put color p)[p] = some color := by
  rw [getElem_put, not_caught_self, place_self]
  rfl

/-- Only stones of the opponent are caught. -/
theorem getElem_of_caught (h : (b.caught color p).has q = true) : b[q] = some color.other := by
  have hne : q ≠ p := fun e => by
    rw [e, not_caught_self] at h
    cases h
  have hq := getElem_of_has_doomed h
  rwa [place_of_ne hne] at hq

theorem put_of_caught (h : (b.caught color p).has q = true) : (b.put color p)[q] = none := by
  rw [getElem_put, if_pos h]

theorem put_of_not_caught (hne : q ≠ p) (h : (b.caught color p).has q = false) :
    (b.put color p)[q] = b[q] := by
  rw [getElem_put, h, place_of_ne hne]
  rfl

theorem put_eq_none (hne : q ≠ p) (h : b[q] = none) : (b.put color p)[q] = none := by
  rw [getElem_put, place_of_ne hne, h, ite_self]

/-- A stone beside an empty point has a liberty. -/
theorem libertyCount_put_of_empty (hq : q ∈ p.neighbours) (hempty : b[q] = none) :
    (b.put color p).libertyCount p ≠ 0 :=
  libertyCount_of_next hq (put_eq_none (Point.ne_of_mem_neighbours hq) hempty)

theorem put_eq_own : (b.put color p)[q] = some color ↔ q = p ∨ b[q] = some color := by
  by_cases hne : q = p
  · subst hne
    rw [put_self]
    simp
  · rw [getElem_put, place_of_ne hne]
    split
    · rename_i hc
      have := getElem_of_caught hc
      simp [this, hne]
    · simp [hne]

theorem put_eq_other (hp : b[p] = none) : (b.put color p)[q] = some color.other ↔
    b[q] = some color.other ∧ (b.caught color p).has q = false := by
  by_cases hne : q = p
  · subst hne
    rw [put_self, hp]
    simp
  · rw [getElem_put, place_of_ne hne]
    split
    · rename_i hc
      simp [hc]
    · rename_i hc
      simp [hc]

/-- A stone of the opponent leaves of a color what it does not catch. -/
theorem put_other_eq (hp : b[p] = none) : (b.put color.other p)[q] = some color ↔
    b[q] = some color ∧ (b.caught color.other p).has q = false := by
  have h : (b.put color.other p)[q] = some color.other.other ↔
      b[q] = some color.other.other ∧ (b.caught color.other p).has q = false := put_eq_other hp
  rw [Color.other_other] at h
  exact h

/-! ## Breath -/

/-- A chain of the color that played breathes on if it does not touch the new stone. -/
theorem Breathes.own (h : b.Breathes) (hq : (b.put color p)[q] = some color)
    (hno : ((b.put color p).chain q).has p = false) :
    ∃ l s, (b.put color p).IsLiberty q l s := by
  have hqp : q ≠ p := fun e => by
    rw [e, has_chain_self] at hno
    cases hno
  have hold : b[q] = some color := (put_eq_own.mp hq).resolve_left hqp
  obtain ⟨l, s, hls⟩ := libertyCount_ne_zero.mp (h q (by simp [hold]))
  have hs : ((b.put color p).chain q).has s = true := has_chain_mono hls.stone fun r hr => by
    rw [hq, put_eq_own]
    exact .inr ((getElem_of_has_chain hr).trans hold)
  refine ⟨l, s, hs, hls.next, put_eq_none (fun e => ?_) hls.empty⟩
  -- If the new stone took the liberty, it would be in the chain.
  have hl : ((b.put color p).chain q).has l = true :=
    has_chain_of_mem_neighbours hs (Point.mem_neighbours_comm.mp hls.next) (by rw [e, put_self, hq])
  rw [e, hno] at hl
  cases hl

/-- A chain of the opponent that is not next to a new stone keeps its liberty. -/
theorem Breathes.of_not_next (h : b.Breathes) (hp : b[p] = none)
    (hq : (b.place color p)[q] = some color.other)
    (hnext : ∀ n ∈ p.neighbours, ((b.place color p).chain q).has n = false) :
    (b.place color p).libertyCount q ≠ 0 := by
  have hqp : q ≠ p := by
    rintro rfl
    rw [place_self] at hq
    exact Color.ne_other _ (Option.some.inj hq)
  have hold : b[q] = some color.other := by rwa [place_of_ne hqp] at hq
  obtain ⟨l, s, hls⟩ := libertyCount_ne_zero.mp (h q (by simp [hold]))
  have hs : ((b.place color p).chain q).has s = true := by
    refine has_chain_mono hls.stone ?_
    intro r hr
    have hr := (getElem_of_has_chain hr).trans hold
    have hrp : r ≠ p := by
      rintro rfl
      rw [hp] at hr
      cases hr
    rw [hq, place_of_ne hrp, hr]
  have hlp : l ≠ p := by
    rintro rfl
    rw [hnext s hls.next] at hs
    cases hs
  exact libertyCount_ne_zero.mpr ⟨l, s, hs, hls.next, (place_of_ne hlp).trans hls.empty⟩

/-- A stone catches all chains of the opponent that it leaves without a liberty. -/
theorem Breathes.has_caught (h : b.Breathes) (hp : b[p] = none) :
    (b.caught color p).has q = true ↔
      (b.place color p)[q] = some color.other ∧ (b.place color p).libertyCount q = 0 := by
  rw [caught, has_withoutLiberty]
  constructor
  · rintro ⟨n, hn, hq⟩
    refine ⟨(getElem_of_has_chain hq).trans hn.stone, ?_⟩
    rw [libertyCount_eq hq]
    exact hn.breathless
  · rintro ⟨hq, hno⟩
    have hnext : ∃ n ∈ p.neighbours, ((b.place color p).chain q).has n = true := by
      by_contra hnot
      refine h.of_not_next hp hq ?_ hno
      intro n hn
      by_contra hhas
      exact hnot ⟨n, hn, (Bool.not_eq_false _).mp hhas⟩
    obtain ⟨n, hn, hqn⟩ := hnext
    refine ⟨n, ⟨hn, (getElem_of_has_chain hqn).trans hq, ?_⟩, has_chain_comm.mp hqn⟩
    rw [libertyCount_eq hqn]
    exact hno

/-- A chain of the opponent that is not caught breathes on. -/
theorem Breathes.other (h : b.Breathes) (hp : b[p] = none)
    (hq : (b.put color p)[q] = some color.other) : ∃ l s, (b.put color p).IsLiberty q l s := by
  obtain ⟨hold, hfree⟩ := (put_eq_other hp).mp hq
  have hqp : q ≠ p := fun e => by
    rw [e, hp] at hold
    cases hold
  have hplaced : (b.place color p)[q] = some color.other := by rw [place_of_ne hqp, hold]
  -- The chain has a liberty as soon as the stone is there, before the captures.
  have hlib : (b.place color p).libertyCount q ≠ 0 := by
    intro hzero
    rw [(h.has_caught hp).mpr ⟨hplaced, hzero⟩] at hfree
    cases hfree
  obtain ⟨l, s, hls⟩ := libertyCount_ne_zero.mp hlib
  have hstay : ∀ r, ((b.place color p).chain q).has r = true →
      (b.caught color p).has r = false := by
    intro r hr
    by_contra hcaught
    have := doomed_whole r q ((Bool.not_eq_false _).mp hcaught) (has_chain_comm.mp hr)
    change (b.caught color p).has q = true at this
    rw [hfree] at this
    cases this
  refine ⟨l, s, has_chain_mono hls.stone fun r hr => ?_, hls.next, ?_⟩
  · rw [getElem_put, getElem_put, hstay r hr, hfree]
    exact getElem_of_has_chain hr
  · rw [getElem_put, hls.empty, ite_self]

/-- A stone that has a liberty after its captures leaves one to every chain. -/
theorem Breathes.put (h : b.Breathes) (hp : b[p] = none)
    (hown : (b.put color p).libertyCount p ≠ 0) :
    (b.put color p).Breathes := by
  intro q hq
  by_cases hcolor : (b.put color p)[q] = some color
  · by_cases hmem : ((b.put color p).chain q).has p = true
    · exact fun hzero => hown ((libertyCount_eq hmem).trans hzero)
    · exact libertyCount_ne_zero.mpr (h.own hcolor ((Bool.not_eq_true _).mp hmem))
  · refine libertyCount_ne_zero.mpr (h.other hp ?_)
    obtain ⟨c, hc⟩ := Option.ne_none_iff_exists'.mp hq
    rw [hc] at hcolor ⊢
    cases c <;> cases color <;> first | rfl | exact absurd rfl hcolor

end Board

end Goban
