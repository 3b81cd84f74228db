import Mathlib.Data.List.Basic
import Goban.Proofs.Search.Changes

/-!
# Leaves of a search tree

Selection ends in every grown tree, at a leaf that was not expanded (`Tree.Grown.exists_select`).
The leaves gathered for one call of the model are different, and wait with their positions until
their evaluations are absorbed (`Tree.Gathered`): none of the selections and absorptions in between
meets a fault (`Tree.Gathered.exists_gather`, `Tree.Gathered.exists_absorb`).
-/

namespace Goban

theorem lastGreatestFrom_lt {κ : Type} (order : κ → κ → Ordering) (ks : List κ) (place : Nat)
    (best : Nat × κ) (h : best.1 < place) :
    lastGreatestFrom order ks place best < place + ks.length := by
  induction ks generalizing place best with
  | nil => exact h
  | cons k rest ih =>
    have hlt : (if order best.2 k = .gt then best else (place, k)).1 < place + 1 := by
      split
      · exact Nat.lt_succ_of_lt h
      · exact Nat.lt_succ_self place
    rw [lastGreatestFrom, List.length_cons, Nat.add_comm rest.length, ← Nat.add_assoc]
    exact ih (place + 1) _ hlt

/-- One element of a list has the greatest key. -/
theorem exists_lastGreatest {α κ : Type} (order : κ → κ → Ordering) (key : α → κ) {l : List α}
    (h : l ≠ []) : ∃ place x, lastGreatest order (l.map key) = some place ∧ l[place]? = some x := by
  cases l with
  | nil => exact absurd rfl h
  | cons x rest =>
    have hlt := lastGreatestFrom_lt order (rest.map key) 1 (0, key x) Nat.zero_lt_one
    rw [List.length_map, Nat.add_comm] at hlt
    exact ⟨_, _, rfl, List.getElem?_eq_getElem hlt⟩

namespace Tree

variable {u : List Path} {n n' : Node} {bs : List (Move × Tree)} {t t' t'' s : Tree} {i : Nat}
  {o : PlayerOptions} {leaf : Leaf} {leaves : List Leaf}

/-! ## More is known of a tree -/

/-- The second tree has all nodes of the first one, with what is known of them. -/
def Extends (t t' : Tree) : Prop :=
  ∀ path s, t.at? path = some s → ∃ s', t'.at? path = some s' ∧
    s'.top.expanded = s.top.expanded ∧
    ∀ position, s.top.position = some position → s'.top.position = some position

namespace Extends

theorem refl (t : Tree) : t.Extends t := fun _ s hs => ⟨s, hs, rfl, fun _ h => h⟩

theorem trans (h : t.Extends t') (h' : t'.Extends t'') : t.Extends t'' := by
  intro path s hs
  obtain ⟨s', hs', hexp, hpos⟩ := h path s hs
  obtain ⟨s'', hs'', hexp', hpos'⟩ := h' path s' hs'
  exact ⟨s'', hs'', hexp'.trans hexp, fun position hp => hpos' position (hpos position hp)⟩

theorem position_eq {position : Position} (h : t.Extends t')
    (ht : t.top.position = some position) : t'.top.position = some position := by
  obtain ⟨s, hs, -, hpos⟩ := h [] t rfl
  cases hs
  exact hpos position ht

theorem modify {g : Tree → Tree} (hexpanded : n'.expanded = n.expanded)
    (hposition : ∀ position, n.position = some position → n'.position = some position)
    (hbranch : ∀ m below, bs[i]? = some (m, below) → below.Extends (g below)) :
    (node n bs).Extends (node n' (bs.modify i fun b => (b.1, g b.2))) := by
  intro path s hs
  cases path with
  | nil =>
    cases hs
    exact ⟨_, rfl, hexpanded, hposition⟩
  | cons j path =>
    simp only [at?] at hs
    split at hs
    · rename_i m below hj
      simp only [at?, List.getElem?_modify, hj]
      by_cases hij : i = j
      · subst hij
        simp only [if_pos]
        exact hbranch m below hj path s hs
      · simp only [if_neg hij]
        exact ⟨s, hs, rfl, fun _ h => h⟩
    · cases hs

theorem renew {m : Move} {below below' : Tree} (hi : bs[i]? = some (m, below))
    (h : below.Extends below') :
    (node n bs).Extends (node n (bs.modify i fun b => (b.1, below'))) := by
  refine modify (g := fun _ => below') rfl (fun _ h => h) ?_
  intro m' old hold
  rw [hi] at hold
  cases hold
  exact h

theorem along (f : Node → Node) (hposition : ∀ n, (f n).position = n.position)
    (hexpanded : ∀ n, (f n).expanded = n.expanded) (path : Path) (t : Tree) :
    t.Extends (t.along f path) := by
  induction path generalizing t with
  | nil =>
    obtain ⟨n, bs⟩ := t
    intro path s hs
    cases path with
    | nil =>
      cases hs
      exact ⟨_, rfl, hexpanded n, fun _ h => (hposition n).trans h⟩
    | cons j path => exact ⟨s, hs, rfl, fun _ h => h⟩
  | cons i path ih =>
    obtain ⟨n, bs⟩ := t
    exact modify (hexpanded n) (fun _ h => (hposition n).trans h) fun m below _ => ih below

theorem visit (outcome : Single) (path : Path) (t : Tree) :
    t.Extends (t.along (.visit outcome) path) :=
  along (.visit outcome) (fun _ => rfl) (fun _ => rfl) path t

theorem addLoss (path : Path) (t : Tree) : t.Extends (t.along .addLoss path) :=
  along .addLoss (fun _ => rfl) (fun _ => rfl) path t

theorem takeLoss (path : Path) (t : Tree) : t.Extends (t.along .takeLoss path) :=
  along .takeLoss (fun _ => rfl) (fun _ => rfl) path t

theorem mapPriors (f : Single → Single → Single) (xs : List Single) :
    (node n bs).Extends (node n (mapPriors f bs xs)) := by
  intro path s hs
  cases path with
  | nil =>
    cases hs
    exact ⟨_, rfl, rfl, fun _ h => h⟩
  | cons i path =>
    obtain ⟨prior, hi⟩ := exists_getElem?_mapPriors f bs xs i
    simp only [at?] at hs
    split at hs
    · rename_i m below hbelow
      simp only [at?, hi, hbelow, Option.map_some]
      exact along (fun n => { n with prior := prior n }) (fun _ => rfl) (fun _ => rfl) [] below
        path s hs
    · cases hs

theorem know {position : Position}
    (h : ∀ known, n.position = some known → some position = some known) :
    (node n bs).Extends (node { n with position := some position } bs) := by
  intro path s hs
  cases path with
  | nil =>
    cases hs
    exact ⟨_, rfl, rfl, h⟩
  | cons i path => exact ⟨s, hs, rfl, fun _ h => h⟩

end Extends

/-! ## Selection -/

theorem positionBelow_eq {above next : Position} {m : Move} (hplay : above.play m = .ok next)
    (hknown : ∀ known, t.top.position = some known → known = next) :
    positionBelow above m t = .ok next := by
  unfold positionBelow
  split
  · rename_i known hk
    rw [hknown known hk]
  · rw [hplay]

/-- Going down through a branch changes this branch only. -/
theorem selectAt_eq {position : Position} {m : Move} {below below' : Tree} {place : Nat}
    {next : Position} (hplace : bs[place]? = some (m, below))
    (hnext : positionBelow position m below = .ok next)
    (hselect : select o next below = .ok (leaf, below')) :
    selectAt o position bs place = .ok (leaf, bs.modify place fun b => (b.1, below')) := by
  induction bs generalizing place with
  | nil => cases hplace
  | cons b rest ih =>
    obtain ⟨m', t⟩ := b
    cases place with
    | zero =>
      cases hplace
      rw [selectAt, hnext]
      simp only [bind, Except.bind]
      rw [hselect]
      rfl
    | succ place =>
      rw [selectAt, ih hplace]
      rfl

/-- A node whose position is over was not expanded. -/
theorem Sound.bare_of_over {losses : Nat} {position : Position} (h : Sound losses t)
    (hknown : ∀ known, t.top.position = some known → known = position)
    (hover : position.isOver = true) : t.top.expanded = false := by
  by_contra hexpanded
  obtain ⟨pos, hpos, hgoes, -⟩ := h.full ((Bool.not_eq_false _).mp hexpanded)
  rw [hknown pos hpos, hover] at hgoes
  cases hgoes

/-- In a grown tree the way down ends at a leaf, and nothing changes but that its position is known
then. -/
theorem Grown.exists_select {position : Position} (h : Grown u t)
    (hknown : ∀ known, t.top.position = some known → known = position) :
    ∃ leaf t', select o position t = .ok (leaf, t') ∧ Grown u t' ∧
      t'.top.position = some position ∧ t.Extends t' ∧
      t' = t.modifyAt (Tree.know leaf.position) leaf.path ∧
      ∃ s, t'.at? leaf.path = some s ∧ s.top.position = some leaf.position ∧
        s.top.expanded = false := by
  induction h generalizing position with
  | @mk u n bs sound branch ih =>
    have hlearns : ∀ known, n.position = some known → some position = some known := by
      intro known hk
      rw [hknown known hk]
    rw [select]
    simp only
    split
    · rename_i hleaf
      refine ⟨_, _, rfl, Grown.know (Grown.mk sound branch) hknown, rfl, ?_, rfl, _, rfl, rfl, ?_⟩
      · exact Extends.know hlearns
      · rw [Bool.or_eq_true, Bool.not_eq_true'] at hleaf
        rcases hleaf with hexpanded | hover
        · exact hexpanded
        · exact sound.bare_of_over hknown hover
    · rename_i hinner
      -- The node is expanded and not over, so there is a branch, and its move can be played.
      simp only [Bool.or_eq_true, Bool.not_eq_true', not_or, Bool.not_eq_false] at hinner
      obtain ⟨pos, hpos, -⟩ := sound.full hinner.1
      obtain rfl : pos = position := hknown pos hpos
      have hn : { n with position := some pos } = n := by
        rw [← show n.position = some pos from hpos]
      rw [hn]
      have hne : bs ≠ [] := sound.branches_ne_nil hinner.1
      obtain ⟨place, ⟨m, below⟩, hplace, hbelow⟩ := exists_lastGreatest Single.totalOrder
        (fun b => Node.merit o pos.toPlay.sign n b.2.top) hne
      obtain ⟨above, next, habove, hplay, hfollows⟩ :=
        sound.exists_play (List.mem_of_getElem? hbelow)
      obtain rfl : pos = above := (hknown above habove).symm
      obtain ⟨leaf, below', hselect, hgrown, htop, hextends, hlearned, s, hs, hleaf⟩ :=
        ih place m below hbelow hfollows
      rw [hplace]
      simp only
      rw [selectAt_eq hbelow (positionBelow_eq hplay hfollows) hselect]
      refine ⟨_, _, rfl, ?_, hpos, Extends.renew hbelow hextends, ?_, s, ?_, hleaf⟩
      · exact (Grown.mk sound branch).renew hbelow hpos hplay hgrown htop
      · rw [hlearned]
        rw [modifyAt, List.modify_eq_set_getElem?, List.modify_eq_set_getElem?, hbelow]
        rfl
      · simp only [at?, List.getElem?_modify, hbelow, if_pos]
        exact hs

/-! ## Leaves that wait -/

/-- A leaf waits for its evaluation: its position is known and not over, and was not expanded. -/
def Waits (t : Tree) (leaf : Leaf) : Prop :=
  leaf.position.isOver = false ∧ ∃ s, t.at? leaf.path = some s ∧
    s.top.position = some leaf.position ∧ s.top.expanded = false

theorem Waits.extends (h : t.Waits leaf) (ht : t.Extends t') : t'.Waits leaf := by
  obtain ⟨hover, s, hs, hposition, hexpanded⟩ := h
  obtain ⟨s', hs', hexpanded', hposition'⟩ := ht leaf.path s hs
  exact ⟨hover, s', hs', hposition' _ hposition, hexpanded'.trans hexpanded⟩

/-- A tree in which some leaves wait, with a visit under way to each of them. -/
structure Gathered (t : Tree) (leaves : List Leaf) : Prop where
  grown : Grown (leaves.map (·.path)) t
  waits : ∀ leaf ∈ leaves, t.Waits leaf
  apart : (leaves.map (·.path)).Nodup

theorem Gathered.of_grown (h : Grown [] t) : t.Gathered [] :=
  ⟨h, fun _ hmem => absurd hmem List.not_mem_nil, List.nodup_nil⟩

theorem Gathered.mapPriors (h : (node n bs).Gathered leaves) (f : Single → Single → Single)
    (xs : List Single) : (node n (Tree.mapPriors f bs xs)).Gathered leaves := by
  refine ⟨h.grown.mapPriors f xs, ?_, h.apart⟩
  intro leaf hleaf
  exact (h.waits leaf hleaf).extends (Extends.mapPriors f xs)

/-- Another leaf is added to those that wait. -/
theorem Gathered.add (h : t.Gathered leaves) (hleaf : t.Waits leaf)
    (hnew : leaf.path ∉ leaves.map (·.path)) :
    (t.along .addLoss leaf.path).Gathered (leaves ++ [leaf]) := by
  have hextends := Extends.addLoss leaf.path t
  have hperm : (leaf.path :: leaves.map (·.path)).Perm ((leaves ++ [leaf]).map (·.path)) := by
    rw [List.map_append]
    exact (List.perm_append_singleton leaf.path _).symm
  refine ⟨(h.grown.addLoss leaf.path).perm hperm, ?_, ?_⟩
  · intro other hother
    rcases List.mem_append.mp hother with hother | hother
    · exact (h.waits other hother).extends hextends
    · rw [List.mem_singleton.mp hother]
      exact hleaf.extends hextends
  · exact hperm.nodup_iff.mp (List.nodup_cons.mpr ⟨hnew, h.apart⟩)

/-- Selection changes no more than that the position of a leaf becomes known. -/
theorem Change.of_learned (hextends : t.Extends t')
    (hlearned : t' = t.modifyAt (Tree.know leaf.position) leaf.path)
    (hs : t'.at? leaf.path = some s) (hposition : s.top.position = some leaf.position)
    (hleaf : s.top.expanded = false) : Change t t' := by
  obtain ⟨s₀, hs₀, rfl⟩ := Option.map_eq_some_iff.mp <|
    (at?_modifyAt_self (Tree.know leaf.position) leaf.path t).symm.trans (hlearned ▸ hs)
  obtain ⟨s', hs', hexpanded, hknown⟩ := hextends leaf.path s₀ hs₀
  obtain rfl := Option.some.inj (hs'.symm.trans hs)
  rw [hlearned]
  refine .know hs₀ (hexpanded.symm.trans hleaf) ?_
  intro known hk
  exact Option.some.inj ((hknown known hk).symm.trans hposition)

/-- Gathering meets no fault, and the leaves that it adds to those that wait do so as well. -/
theorem Gathered.exists_gather {root : Position} (count : Nat) (h : t.Gathered leaves)
    (hroot : t.top.position = some root) :
    ∃ new t', gather o count t leaves = .ok (leaves ++ new, t') ∧ t'.Gathered (leaves ++ new) ∧
      t.Extends t' ∧ Changes t t' := by
  induction count generalizing t leaves with
  | zero =>
    refine ⟨[], t, ?_, ?_, Extends.refl t, .refl⟩
    · rw [List.append_nil]
      rfl
    · rw [List.append_nil]
      exact h
  | succ count ih =>
    obtain ⟨leaf, t₁, hselect, hgrown, hroot₁, hextends, hlearned, s, hs, hposition, hleaf⟩ :=
      h.grown.exists_select (o := o) fun known hknown =>
        Option.some.inj (hknown.symm.trans hroot)
    have hchange : Change t t₁ := .of_learned hextends hlearned hs hposition hleaf
    have h₁ : t₁.Gathered leaves := ⟨hgrown, fun l hl => (h.waits l hl).extends hextends, h.apart⟩
    rw [gather, selectLeaf, hroot]
    simp only [hselect, bind, Except.bind]
    split
    · -- A finished position is visited at once.
      rename_i hover
      have hvisit := Extends.visit (finalOutcome leaf.position) leaf.path t₁
      obtain ⟨new, t', hgather, hgathered, hextends', hchanges⟩ := ih
        ⟨hgrown.visit _ _, fun l hl => (h₁.waits l hl).extends hvisit, h.apart⟩
        (hvisit.position_eq hroot₁)
      exact ⟨new, t', hgather, hgathered, hextends.trans (hvisit.trans hextends'),
        .head hchange (.head (.finish hs hleaf hposition hover _) hchanges)⟩
    · rename_i hover
      split
      · -- The same leaf has come up again, which ends the selection.
        refine ⟨[], t₁, ?_, ?_, hextends, .single hchange⟩
        · rw [List.append_nil]
        · rw [List.append_nil]
          exact h₁
      · rename_i hnew
        have hwaits : t₁.Waits leaf :=
          ⟨(Bool.not_eq_true _).mp hover, s, hs, hposition, hleaf⟩
        have hpath : leaf.path ∉ leaves.map (·.path) := by simpa using hnew
        have hadd := Extends.addLoss leaf.path t₁
        obtain ⟨new, t', hgather, hgathered, hextends', hchanges⟩ :=
          ih (h₁.add hwaits hpath) (hadd.position_eq hroot₁)
        rw [List.append_assoc] at hgather hgathered
        exact ⟨[leaf] ++ new, t', hgather, hgathered, hextends.trans (hadd.trans hextends'),
          .head hchange (.head (.addLoss hs) hchanges)⟩

theorem selectLeaf_of_unexpanded {root : Position} (hroot : t.top.position = some root)
    (hexpanded : t.top.expanded = false) : t.selectLeaf o = .ok (⟨[], root⟩, t) := by
  obtain ⟨n, bs⟩ := t
  have hn : { n with position := some root } = n := by
    rw [← show n.position = some root from hroot]
  have hleaf : (!n.expanded || root.isOver) = true := by
    rw [show n.expanded = false from hexpanded]
    rfl
  rw [selectLeaf, hroot]
  simp only [select, hn, if_pos hleaf]

/-- The top itself is gathered first if it was not expanded. -/
theorem gather_of_unexpanded {root : Position} {count : Nat} (hroot : t.top.position = some root)
    (hexpanded : t.top.expanded = false) (hover : root.isOver = false) :
    gather o (count + 1) t [] = gather o count (t.along .addLoss []) [⟨[], root⟩] := by
  rw [gather, selectLeaf_of_unexpanded hroot hexpanded]
  simp only [bind, Except.bind, hover]
  rfl

/-- From a tree at rest, gathering meets no fault, and begins at the top if that can be expanded. -/
theorem Grown.exists_gather {root : Position} (h : Grown [] t) (o : PlayerOptions) (count : Nat)
    (hroot : t.top.position = some root) :
    ∃ leaves t', gather o count t [] = .ok (leaves, t') ∧ t'.Gathered leaves ∧ t.Extends t' ∧
      Changes t t' ∧ (0 < count → t.top.expanded = false → root.isOver = false →
        ∃ leaf ∈ leaves, leaf.path = []) := by
  by_cases htop : 0 < count ∧ t.top.expanded = false ∧ root.isOver = false
  · obtain ⟨hcount, hexpanded, hover⟩ := htop
    obtain ⟨count, rfl⟩ := Nat.exists_eq_succ_of_ne_zero (Nat.ne_of_gt hcount)
    have hwaits : t.Waits ⟨[], root⟩ := ⟨hover, t, rfl, hroot, hexpanded⟩
    have hadd := Extends.addLoss [] t
    obtain ⟨new, t', hgather, hgathered, hextends, hchanges⟩ := Gathered.exists_gather (o := o)
      count ((Gathered.of_grown h).add hwaits List.not_mem_nil) (hadd.position_eq hroot)
    refine ⟨_, t', ?_, hgathered, hadd.trans hextends, .head (.addLoss rfl) hchanges, ?_⟩
    · rw [gather_of_unexpanded hroot hexpanded hover]
      exact hgather
    · intro _ _ _
      exact ⟨⟨[], root⟩, by simp, rfl⟩
  · obtain ⟨new, t', hgather, hgathered, hextends, hchanges⟩ :=
      (Gathered.of_grown h).exists_gather (o := o) count hroot
    refine ⟨new, t', hgather, hgathered, hextends, hchanges, ?_⟩
    intro hcount hexpanded hover
    exact absurd ⟨hcount, hexpanded, hover⟩ htop

/-! ## Evaluations are absorbed -/

theorem Grown.losses_ne_zero {path : Path} (h : Grown (path :: u) t) :
    ∀ n ∈ t.nodesOn path, n.virtualLosses ≠ 0 := by
  have htop : ∀ {path u t}, Grown (path :: u) t → t.top.virtualLosses ≠ 0 := by
    intro path u t h
    rw [h.sound.losses]
    exact Nat.succ_ne_zero _
  induction path generalizing u t with
  | nil =>
    obtain ⟨n, bs⟩ := t
    intro n' hn'
    rw [List.mem_singleton.mp hn']
    exact htop h
  | cons i path ih =>
    obtain ⟨n, bs⟩ := t
    intro n' hn'
    rw [nodesOn] at hn'
    split at hn'
    · rename_i m below hi
      rcases List.mem_cons.mp hn' with rfl | hn'
      · exact htop h
      · have hbelow := h.branch hi
        rw [under_cons_self] at hbelow
        exact ih hbelow n' hn'
    · rw [List.mem_singleton.mp hn']
      exact htop h

/-- A change at the end of a path leaves what is known elsewhere, if nothing is below the end. -/
theorem at?_modifyAt {f : Tree → Tree} {path q : Path} {t s s' : Tree} (hs : t.at? path = some s)
    (hbare : s.branches = []) (hne : q ≠ path) (hs' : t.at? q = some s') :
    ∃ s'', (t.modifyAt f path).at? q = some s'' ∧ s''.top = s'.top := by
  induction path generalizing t q with
  | nil =>
    cases hs
    obtain ⟨n, bs⟩ := s
    cases q with
    | nil => exact absurd rfl hne
    | cons j q =>
      simp only [branches] at hbare
      subst hbare
      cases hs'
  | cons i path ih =>
    obtain ⟨n, bs⟩ := t
    cases q with
    | nil =>
      cases hs'
      exact ⟨_, rfl, rfl⟩
    | cons j q =>
      simp only [at?] at hs hs'
      split at hs <;> rename_i hi
      · split at hs' <;> rename_i hj
        · simp only [modifyAt, at?, List.getElem?_modify, hj]
          by_cases hij : i = j
          · subst hij
            rw [hi] at hj
            cases hj
            simp only [if_pos]
            exact ih hs (by simpa using hne) hs'
          · simp only [if_neg hij]
            exact ⟨s', hs', rfl⟩
        · cases hs'
      · cases hs

/-- Absorbing the evaluation of a leaf that waits meets no fault and expands the leaf; the other
leaves still wait. -/
theorem Gathered.exists_absorb {e : Evaluation} (h : t.Gathered (leaf :: leaves))
    (hsize : e.policy.length = policySize) :
    ∃ t', absorb leaf e t = .ok t' ∧ t'.Gathered leaves ∧
      t'.top.position = t.top.position ∧ Changes t t' ∧ t'.IsExpanded leaf.path := by
  have hlosses : (t.nodesOn leaf.path).any (·.virtualLosses = 0) = false := by
    rw [List.any_eq_false]
    intro n hn
    rw [decide_eq_true_eq]
    exact h.grown.losses_ne_zero n hn
  have htake := Extends.takeLoss leaf.path t
  have hgrown : Grown (leaves.map (·.path)) (t.along .takeLoss leaf.path) := h.grown.takeLoss
  have hwaits : ∀ l ∈ leaf :: leaves, (t.along .takeLoss leaf.path).Waits l :=
    fun l hl => (h.waits l hl).extends htake
  obtain ⟨-, s₀, hs₀, -⟩ := h.waits leaf List.mem_cons_self
  obtain ⟨hover, s, hs, hposition, hexpanded⟩ := hwaits leaf List.mem_cons_self
  have hbare : s.branches = [] := by
    obtain ⟨u', hs', -⟩ := hgrown.exists_at hs
    exact hs'.sound.bare hexpanded
  obtain ⟨hnew, hapart⟩ := List.nodup_cons.mp h.apart
  rw [absorb, hlosses, if_neg Bool.false_ne_true]
  simp only [hs, hsize, bne_self_eq_false, Bool.and_false, if_neg Bool.false_ne_true]
  refine ⟨_, rfl, ⟨(hgrown.expandAt hs hposition hexpanded hover ?_).visit _ _, ?_, hapart⟩, ?_,
    .head (.takeLoss hs₀) (.single (.expand hs hexpanded hbare hposition hover _ _)), ?_⟩
  · intro q hq
    obtain ⟨l, hl, rfl⟩ := List.mem_map.mp hq
    obtain ⟨-, s', hs', -⟩ := hwaits l (List.mem_cons_of_mem _ hl)
    exact ⟨s', hs'⟩
  · intro l hl
    refine Waits.extends ?_ (Extends.visit _ _ _)
    obtain ⟨hover', s', hs', hposition', hexpanded'⟩ := hwaits l (List.mem_cons_of_mem _ hl)
    -- The other leaf lies elsewhere, and not below, since this one had no branches.
    have hne : l.path ≠ leaf.path := fun heq => hnew (List.mem_map.mpr ⟨l, hl, heq⟩)
    obtain ⟨s'', hs'', htop⟩ := at?_modifyAt hs hbare hne hs'
    exact ⟨hover', s'', hs'', by rw [htop, hposition'], by rw [htop, hexpanded']⟩
  · rw [top_along]
    exact (position_modifyAt_expand _ _ _ _).trans (by rw [top_along]; rfl)
  · have hnew : ((t.along .takeLoss leaf.path).modifyAt (expand e.policy leaf.position)
        leaf.path).at? leaf.path = some (expand e.policy leaf.position s) := by
      rw [at?_modifyAt_self, hs]
      rfl
    obtain ⟨s', hs', hexpanded', -⟩ := Extends.visit (e.value * leaf.position.toPlay.sign)
      leaf.path _ leaf.path _ hnew
    exact ⟨s', hs', hexpanded'.trans (congrArg Node.expanded (top_expand _ _ s))⟩

end Tree

end Goban
