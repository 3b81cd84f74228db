import Mathlib.Data.List.Perm.Basic
import Mathlib.Data.List.Nodup
import Goban.Search.Copy

/-!
# The copy of a tree

What waits while a tree is copied are nodes that have no branches yet (`Graph.Ready`), so copying
the branches of one node leaves all other nodes as they are. When none waits any more, each node that
waited has the tree that it stood for below it, in the opposite order (`Graph.copied_copyWaiting`).
So a transplanted tree is the tree with the branches of every node reversed
(`Tree.transplant_eq_reverse`), and its graph has one node for each node of the tree
(`Graph.size_ofTree`), with one branch to each but the first (`Graph.ends_ofTree`).
-/

namespace Goban

namespace Tree

mutual

/-- The tree with the branches of every node in the opposite order. -/
def reverse : Tree → Tree
  | node n bs => node n (reverseAll bs).reverse

/-- The trees of a list of branches, each reversed. -/
def reverseAll : List (Move × Tree) → List (Move × Tree)
  | [] => []
  | (m, t) :: rest => (m, reverse t) :: reverseAll rest

end

theorem reverseAll_eq_map (bs : List (Move × Tree)) :
    reverseAll bs = bs.map fun b => (b.1, b.2.reverse) := by
  induction bs with
  | nil => rfl
  | cons b rest ih =>
    rw [reverseAll, ih]
    rfl

theorem top_reverse (t : Tree) : t.reverse.top = t.top := by
  obtain ⟨n, bs⟩ := t
  rfl

end Tree

namespace Graph

variable {g g' : Graph} {above i j : Nat} {m : Move} {t : Tree} {n : Node} {es : List (Move × Nat)}
  {bs : List (Move × Tree)} {waiting : List (Tree × Nat)}

/-! ## The branches of one node -/

/-- The graph with a copy of one branch. -/
def sprout (above : Nat) (m : Move) (n : Node) (g : Graph) : Graph :=
  (g.addNode n).addBranch above m g.size

theorem size_sprout (above : Nat) (m : Move) (n : Node) (g : Graph) :
    (g.sprout above m n).size = g.size + 1 := by
  unfold sprout addBranch addNode size
  rw [Array.size_modify, Array.size_push]

theorem getElem?_sprout_self (h : g.nodes[above]? = some (n, es)) (m : Move) (n' : Node) :
    (g.sprout above m n').nodes[above]? = some (n, (m, g.size) :: es) := by
  have hlt := (Array.getElem?_eq_some_iff.mp h).1
  unfold sprout addBranch addNode
  rw [Array.getElem?_modify, if_pos rfl, Array.getElem?_push, if_neg (Nat.ne_of_lt hlt), h]
  rfl

theorem getElem?_sprout_new (h : above < g.size) (m : Move) (n : Node) :
    (g.sprout above m n).nodes[g.size]? = some (n, []) := by
  unfold sprout addBranch addNode
  rw [Array.getElem?_modify, if_neg (Nat.ne_of_lt h)]
  exact Array.getElem?_push_size

theorem getElem?_sprout_of_ne (hne : i ≠ above) (h : i < g.size) (m : Move) (n : Node) :
    (g.sprout above m n).nodes[i]? = g.nodes[i]? := by
  unfold sprout addBranch addNode
  rw [Array.getElem?_modify, if_neg (Ne.symm hne), Array.getElem?_push]
  exact if_neg (Nat.ne_of_lt h)

theorem copyBranches_cons (above : Nat) (m : Move) (t : Tree) (bs : List (Move × Tree)) (g : Graph)
    (waiting : List (Tree × Nat)) : copyBranches above ((m, t) :: bs) g waiting =
      copyBranches above bs (g.sprout above m t.top) ((t, g.size) :: waiting) := rfl

theorem size_copyBranches (above : Nat) (bs : List (Move × Tree)) (g : Graph)
    (waiting : List (Tree × Nat)) :
    (copyBranches above bs g waiting).1.size = g.size + bs.length := by
  induction bs generalizing g waiting with
  | nil => rfl
  | cons b bs ih =>
    obtain ⟨m, t⟩ := b
    rw [copyBranches_cons, ih, size_sprout, List.length_cons]
    omega

/-- The new nodes wait, the last one on top. -/
theorem copyBranches_waiting (above : Nat) (bs : List (Move × Tree)) (g : Graph)
    (waiting : List (Tree × Nat)) : (copyBranches above bs g waiting).2 =
      ((bs.zipIdx g.size).map fun b => (b.1.2, b.2)).reverse ++ waiting := by
  induction bs generalizing g waiting with
  | nil => rfl
  | cons b bs ih =>
    obtain ⟨m, t⟩ := b
    rw [copyBranches_cons, ih, size_sprout, List.zipIdx_cons, List.map_cons, List.reverse_cons,
      List.append_assoc]
    rfl

theorem getElem?_copyBranches_of_ne (hne : i ≠ above) (h : i < g.size) (bs : List (Move × Tree))
    (waiting : List (Tree × Nat)) : (copyBranches above bs g waiting).1.nodes[i]? = g.nodes[i]? := by
  induction bs generalizing g waiting with
  | nil => rfl
  | cons b bs ih =>
    obtain ⟨m, t⟩ := b
    rw [copyBranches_cons, ih (by rw [size_sprout]; omega), getElem?_sprout_of_ne hne h]

theorem getElem?_copyBranches_self (h : g.nodes[above]? = some (n, es)) (bs : List (Move × Tree))
    (waiting : List (Tree × Nat)) : (copyBranches above bs g waiting).1.nodes[above]? =
      some (n, ((bs.zipIdx g.size).map fun b => (b.1.1, b.2)).reverse ++ es) := by
  induction bs generalizing g waiting es with
  | nil => exact h
  | cons b bs ih =>
    obtain ⟨m, t⟩ := b
    rw [copyBranches_cons, ih (getElem?_sprout_self h m t.top), size_sprout, List.zipIdx_cons,
      List.map_cons, List.reverse_cons, List.append_assoc]
    rfl

theorem getElem?_copyBranches_new (habove : above < g.size) (hmem : ((m, t), i) ∈ bs.zipIdx g.size)
    (waiting : List (Tree × Nat)) :
    (copyBranches above bs g waiting).1.nodes[i]? = some (t.top, []) := by
  induction bs generalizing g waiting with
  | nil => cases hmem
  | cons b bs ih =>
    obtain ⟨m', t'⟩ := b
    rw [List.zipIdx_cons, List.mem_cons] at hmem
    rw [copyBranches_cons]
    rcases hmem with heq | hmem
    · cases heq
      rw [getElem?_copyBranches_of_ne (Nat.ne_of_gt habove) (by rw [size_sprout]; omega)]
      exact getElem?_sprout_new habove m t.top
    · refine ih (by rw [size_sprout]; omega) ?_ _
      rw [size_sprout]
      exact hmem

/-! ## All that waits -/

/-- The nodes that wait are different, and have no branches yet. -/
structure Ready (g : Graph) (waiting : List (Tree × Nat)) : Prop where
  apart : (waiting.map (·.2)).Nodup
  bare : ∀ t i, (t, i) ∈ waiting → g.nodes[i]? = some (t.top, [])

/-- What becomes of a graph when the trees that wait are copied. -/
structure Copied (g : Graph) (waiting : List (Tree × Nat)) (g' : Graph) : Prop where
  size : g'.size + waiting.length = g.size + sizeWaiting waiting
  kept : ∀ i, i < g.size → i ∉ waiting.map (·.2) → g'.nodes[i]? = g.nodes[i]?
  /-- Below a node that waited stands the tree that waited with it, in the opposite order. -/
  shown : ∀ t i, (t, i) ∈ waiting → ∀ depth, t.size ≤ depth → g'.treeAt depth i = t.reverse

theorem Ready.lt_size (h : g.Ready waiting) (hmem : (t, i) ∈ waiting) : i < g.size :=
  (Array.getElem?_eq_some_iff.mp (h.bare t i hmem)).1

theorem mem_copyBranches_waiting : (t, i) ∈ (copyBranches above bs g waiting).2 ↔
    (∃ m, ((m, t), i) ∈ bs.zipIdx g.size) ∨ (t, i) ∈ waiting := by
  rw [copyBranches_waiting, List.mem_append, List.mem_reverse, List.mem_map]
  refine or_congr_left ⟨?_, ?_⟩
  · rintro ⟨⟨⟨m, t'⟩, j⟩, hmem, heq⟩
    cases heq
    exact ⟨m, hmem⟩
  · rintro ⟨m, hmem⟩
    exact ⟨_, hmem, rfl⟩

theorem Ready.copyBranches (h : g.Ready ((t, above) :: waiting)) :
    (copyBranches above t.branches g waiting).1.Ready
      (copyBranches above t.branches g waiting).2 := by
  have habove := h.lt_size List.mem_cons_self
  obtain ⟨hnot, hapart⟩ := List.nodup_cons.mp h.apart
  constructor
  · -- The new numbers begin where the old ones end.
    have hnew : (((t.branches.zipIdx g.size).map fun b => (b.1.2, b.2)).reverse.map (·.2)) =
        (List.range' g.size t.branches.length).reverse := by
      rw [List.map_reverse, List.map_map]
      exact congrArg List.reverse (List.zipIdx_map_snd _ _)
    rw [copyBranches_waiting, List.map_append, hnew, List.nodup_append]
    refine ⟨List.nodup_reverse.mpr List.nodup_range', hapart, ?_⟩
    rintro i hi j hj rfl
    obtain ⟨⟨t', j⟩, hmem, rfl⟩ := List.mem_map.mp hj
    have hold := h.lt_size (List.mem_cons_of_mem _ hmem)
    have hlow := (List.mem_range'_1.mp (List.mem_reverse.mp hi)).1
    omega
  · intro t' i hmem
    rcases mem_copyBranches_waiting.mp hmem with ⟨m, hnew⟩ | hold
    · exact getElem?_copyBranches_new habove hnew waiting
    · have hne : i ≠ above := by
        rintro rfl
        exact hnot (List.mem_map.mpr ⟨_, hold, rfl⟩)
      have hold := List.mem_cons_of_mem (t, above) hold
      rw [getElem?_copyBranches_of_ne hne (h.lt_size hold)]
      exact h.bare t' i hold

/-- A node that does not wait now does not wait once branches are copied, and stays as it is then. -/
theorem Copied.kept_of_copyBranches
    (h : Copied (copyBranches above bs g waiting).1 (copyBranches above bs g waiting).2 g')
    (hi : i < g.size) (hout : i ∉ waiting.map (·.2)) :
    g'.nodes[i]? = (copyBranches above bs g waiting).1.nodes[i]? := by
  refine h.kept i ?_ ?_
  · rw [size_copyBranches]
    omega
  · intro hmem
    obtain ⟨⟨t', j⟩, hwaits, rfl⟩ := List.mem_map.mp hmem
    rcases mem_copyBranches_waiting.mp hwaits with ⟨m, hnew⟩ | hold
    · have hlow := (List.mem_zipIdx hnew).1
      omega
    · exact hout (List.mem_map.mpr ⟨_, hold, rfl⟩)

theorem treeAt_succ (h : g.nodes[i]? = some (n, es)) (depth : Nat) :
    g.treeAt (depth + 1) i = .node n (es.map fun e => (e.1, g.treeAt depth e.2)) := by
  rw [treeAt, h]

theorem size_le_sizeAll {b : Move × Tree} (hb : b ∈ bs) : b.2.size ≤ Tree.sizeAll bs := by
  induction bs with
  | nil => cases hb
  | cons b' bs ih =>
    obtain ⟨m, t⟩ := b'
    rw [Tree.sizeAll]
    rcases List.mem_cons.mp hb with rfl | hb
    · exact Nat.le_add_right _ _
    · exact Nat.le_trans (ih hb) (Nat.le_add_left _ _)

/-- The last branch that was copied is the first to be walked. -/
theorem copies_eq_reverseAll {first : Nat} {shape : Nat → Tree}
    (h : ∀ b ∈ bs.zipIdx first, shape b.2 = b.1.2.reverse) :
    (((bs.zipIdx first).map fun b => (b.1.1, b.2)).reverse.map fun e => (e.1, shape e.2)) =
      (Tree.reverseAll bs).reverse := by
  rw [List.map_reverse, List.map_map, Tree.reverseAll_eq_map]
  refine congrArg List.reverse ?_
  calc (bs.zipIdx first).map ((fun e => (e.1, shape e.2)) ∘ fun b => (b.1.1, b.2))
      = (bs.zipIdx first).map ((fun b => (b.1, b.2.reverse)) ∘ Prod.fst) := by
        refine List.map_congr_left fun b hb => ?_
        simp only [Function.comp_apply, h b hb]
    _ = bs.map fun b => (b.1, b.2.reverse) := by
        rw [← List.map_map, List.zipIdx_map_fst]

/-- The copy of all that waits: each step copies the branches of one node, and leaves the nodes that
do not wait as they are. -/
theorem copied_copyWaiting (h : g.Ready waiting) : Copied g waiting (copyWaiting g waiting) := by
  induction g, waiting using copyWaiting.induct with
  | case1 g =>
    rw [copyWaiting]
    exact ⟨rfl, fun _ _ _ => rfl, fun _ _ hmem => absurd hmem List.not_mem_nil⟩
  | case2 g t above waiting ih =>
    have hcopied := ih h.copyBranches
    have habove := h.lt_size List.mem_cons_self
    obtain ⟨hnot, -⟩ := List.nodup_cons.mp h.apart
    rw [copyWaiting]
    generalize copyWaiting _ _ = final at hcopied
    refine ⟨?_, ?_, ?_⟩
    · have hsize := hcopied.size
      rw [size_copyBranches, sizeWaiting_copyBranches, copyBranches_waiting, List.length_append,
        List.length_reverse, List.length_map, List.length_zipIdx] at hsize
      rw [sizeWaiting, t.size_eq, List.length_cons]
      omega
    · intro i hi hout
      rw [List.map_cons, List.mem_cons, not_or] at hout
      rw [hcopied.kept_of_copyBranches hi hout.2, getElem?_copyBranches_of_ne hout.1 hi]
    · intro t' i hmem depth hdepth
      -- What has just left the stack has its branches now; the rest waits on.
      rcases List.mem_cons.mp hmem with heq | hold
      · cases heq
        have hnode := (hcopied.kept_of_copyBranches habove hnot).trans
          (getElem?_copyBranches_self (h.bare t above List.mem_cons_self) t.branches waiting)
        rw [t.size_eq, Nat.add_comm] at hdepth
        obtain ⟨depth, rfl⟩ := Nat.exists_eq_add_of_le' (Nat.le_of_add_left_le hdepth)
        rw [treeAt_succ hnode]
        have hbelow : ∀ b ∈ t.branches.zipIdx g.size,
            final.treeAt depth b.2 = b.1.2.reverse := by
          rintro ⟨⟨m, below⟩, j⟩ hb
          refine hcopied.shown below j (mem_copyBranches_waiting.mpr (.inl ⟨m, hb⟩)) depth ?_
          have hsize := size_le_sizeAll (List.fst_mem_of_mem_zipIdx hb)
          exact Nat.le_trans hsize (Nat.le_of_succ_le_succ hdepth)
        rw [List.append_nil, copies_eq_reverseAll hbelow]
        obtain ⟨n, bs⟩ := t
        rfl
      · exact hcopied.shown t' i (mem_copyBranches_waiting.mpr (.inr hold)) depth hdepth

/-! ## The whole copy -/

theorem ready_start (t : Tree) : (empty.addNode t.top).Ready [(t, 0)] := by
  refine ⟨List.nodup_singleton 0, ?_⟩
  intro t' i hmem
  cases List.mem_singleton.mp hmem
  rfl

/-- A copy has one node for each node of the tree. -/
theorem size_ofTree (t : Tree) : (ofTree t).size = t.size := by
  have hsize : (ofTree t).size + 1 = 1 + (t.size + 0) := (copied_copyWaiting (ready_start t)).size
  omega

/-! ## One branch to each node -/

/-- The numbers at the lower ends of the branches. -/
def ends (g : Graph) : List Nat := g.nodes.toList.flatMap fun node => node.2.map (·.2)

theorem ends_sprout (h : above < g.size) (m : Move) (n : Node) :
    (g.sprout above m n).ends.Perm (g.size :: g.ends) := by
  have hlt : above < (g.nodes.toList ++ [(n, [])]).length := by
    rw [List.length_append]
    exact Nat.lt_add_right 1 h
  have hends : g.ends = (g.nodes.toList ++ [(n, ([] : List (Move × Nat)))]).flatMap
      fun node => node.2.map (·.2) := by
    rw [List.flatMap_append]
    exact (List.append_nil _).symm
  rw [hends]
  unfold ends sprout addBranch addNode
  rw [Array.toList_modify, Array.toList_push, List.modify_eq_take_cons_drop hlt]
  generalize g.nodes.toList ++ [(n, [])] = nodes at hlt
  conv => rhs; rw [← List.take_append_drop above nodes, List.drop_eq_getElem_cons hlt]
  rw [List.flatMap_append, List.flatMap_append, List.flatMap_cons, List.flatMap_cons]
  exact List.perm_middle

theorem ends_copyBranches (h : above < g.size) (bs : List (Move × Tree))
    (waiting : List (Tree × Nat)) : (copyBranches above bs g waiting).1.ends.Perm
      (List.range' g.size bs.length ++ g.ends) := by
  induction bs generalizing g waiting with
  | nil => exact .refl _
  | cons b bs ih =>
    obtain ⟨m, t⟩ := b
    have habove : above < (g.sprout above m t.top).size := by
      rw [size_sprout]
      omega
    have hrest := ih habove ((t, g.size) :: waiting)
    rw [size_sprout] at hrest
    rw [copyBranches_cons, List.length_cons, List.range'_succ]
    exact hrest.trans (((ends_sprout h m t.top).append_left _).trans List.perm_middle)

/-- Each new node has one branch to it. -/
theorem ends_copyWaiting (h : g.Ready waiting) : ∃ new, (copyWaiting g waiting).size = g.size + new ∧
    (copyWaiting g waiting).ends.Perm (List.range' g.size new ++ g.ends) := by
  induction g, waiting using copyWaiting.induct with
  | case1 g =>
    rw [copyWaiting]
    exact ⟨0, rfl, .refl _⟩
  | case2 g t above waiting ih =>
    obtain ⟨new, hsize, hends⟩ := ih h.copyBranches
    have hbranches := ends_copyBranches (h.lt_size List.mem_cons_self) t.branches waiting
    rw [size_copyBranches] at hsize hends
    rw [copyWaiting]
    refine ⟨t.branches.length + new, by omega, ?_⟩
    rw [← List.range'_append_1]
    refine (hends.trans (hbranches.append_left _)).trans ?_
    rw [← List.append_assoc]
    exact List.perm_append_comm.append_right _

/-- In a copy one branch leads to each node but the first. -/
theorem ends_ofTree (t : Tree) : (ofTree t).ends.Perm (List.range' 1 (t.size - 1)) := by
  obtain ⟨new, hsize, hends⟩ := ends_copyWaiting (ready_start t)
  have hnew : new = t.size - 1 := by
    have hcopy := size_ofTree t
    have hstart : (empty.addNode t.top).size = 1 := rfl
    unfold ofTree at hcopy
    omega
  rw [hnew] at hends
  exact hends.trans (.of_eq (List.append_nil _))

end Graph

/-- A transplanted tree has the branches of every node in the opposite order. -/
theorem Tree.transplant_eq_reverse (t : Tree) : t.transplant = t.reverse := by
  refine (Graph.copied_copyWaiting (Graph.ready_start t)).shown t 0 List.mem_cons_self _ ?_
  exact Nat.le_of_eq (Graph.size_ofTree t).symm

end Goban
