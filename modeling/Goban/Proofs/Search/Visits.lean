import Mathlib.Algebra.GroupWithZero.Nat
import Mathlib.Algebra.Order.BigOperators.Group.List
import Goban.Proofs.Search.Changes

/-!
# Visits are conserved

A node that was expanded has one visit for its expansion and one for each visit to the nodes below
it (`Tree.Tallied`); a node that was not expanded has none, unless its position is over. Every
change of a search keeps the count at all nodes of a tree (`Tree.Changes.balanced`), and so do new
orders of the branches (`Tree.Balanced.reverse`).
-/

namespace Goban

namespace Tree

variable {n n' : Node} {bs bs' : List (Move × Tree)} {t t' s : Tree} {path : Path}
  {f : Node → Node} {g : Tree → Tree} {i : Nat}

/-- The visits to the nodes below the top of some branches. -/
def visitsBelow (bs : List (Move × Tree)) : Nat := (bs.map (·.2.top.visits)).sum

/-- The visits to a node are those that its branches account for. -/
structure Tallied (t : Tree) : Prop where
  inner : t.top.expanded = true → t.top.visits = 1 + visitsBelow t.branches
  leaf : t.top.expanded = false →
    (∀ position, t.top.position = some position → position.isOver = false) → t.top.visits = 0

/-- A tree whose nodes are all tallied. -/
inductive Balanced : Tree → Prop where
  | mk {n : Node} {bs : List (Move × Tree)} (tallied : (node n bs).Tallied)
      (bare : n.expanded = false → bs = []) (branch : ∀ b ∈ bs, Balanced b.2) :
      Balanced (node n bs)

theorem visitsBelow_modify {k : Nat} {m : Move} {below : Tree} {g : Move × Tree → Move × Tree}
    (hi : bs[i]? = some (m, below)) (hk : (g (m, below)).2.top.visits = below.top.visits + k) :
    visitsBelow (bs.modify i g) = visitsBelow bs + k := by
  unfold visitsBelow
  induction bs generalizing i with
  | nil => cases hi
  | cons b bs ih =>
    cases i with
    | zero =>
      cases hi
      simp only [List.modify_zero_cons, List.map_cons, List.sum_cons, hk]
      omega
    | succ i =>
      simp only [List.modify_succ_cons, List.map_cons, List.sum_cons, ih hi]
      omega

theorem visitsBelow_reverse (bs : List (Move × Tree)) :
    visitsBelow (reverseAll bs).reverse = visitsBelow bs := by
  unfold visitsBelow
  rw [List.map_reverse, List.sum_reverse, reverseAll_eq_map, List.map_map]
  refine congrArg List.sum (List.map_congr_left ?_)
  intro b _
  exact congrArg Node.visits (top_reverse b.2)

theorem visitsBelow_mapPriors (f : Single → Single → Single) (bs : List (Move × Tree))
    (xs : List Single) : visitsBelow (mapPriors f bs xs) = visitsBelow bs := by
  refine congrArg List.sum (List.ext_getElem? fun i => ?_)
  obtain ⟨prior, hi⟩ := exists_getElem?_mapPriors f bs xs i
  rw [List.getElem?_map, List.getElem?_map, hi, Option.map_map]
  refine congrArg (Option.map · bs[i]?) (funext fun b => ?_)
  simp only [Function.comp_apply, top_along]

namespace Balanced

theorem tallied (h : Balanced t) : t.Tallied := by
  cases h with
  | mk tallied => exact tallied

theorem branch {b : Move × Tree} (h : Balanced (node n bs)) (hb : b ∈ bs) : Balanced b.2 := by
  cases h with
  | mk _ _ branch => exact branch b hb

/-- A branch is only below a node that was expanded. -/
theorem expanded {b : Move × Tree} (h : Balanced (node n bs)) (hb : b ∈ bs) :
    n.expanded = true := by
  cases h with
  | mk _ bare _ =>
    by_contra hexpanded
    rw [bare ((Bool.not_eq_true _).mp hexpanded)] at hb
    cases hb

theorem of_branch {m : Move} {below : Tree} (h : Balanced t) (hb : (m, below) ∈ t.branches) :
    Balanced below := by
  obtain ⟨n, bs⟩ := t
  exact h.branch hb

theorem at_path (h : Balanced t) (hs : t.at? path = some s) : Balanced s := by
  induction path generalizing t with
  | nil =>
    cases hs
    exact h
  | cons i path ih =>
    obtain ⟨n, bs⟩ := t
    obtain ⟨m, below, hi, hbelow⟩ := at?_cons_eq_some.mp hs
    exact ih (h.branch (List.mem_of_getElem? hi)) hbelow

/-- A node that nobody has come to is balanced. -/
theorem fresh (hexpanded : n.expanded = false) (hvisits : n.visits = 0) :
    Balanced (node n []) := by
  refine .mk ⟨?_, fun _ _ => hvisits⟩ (fun _ => rfl) fun b hb => absurd hb List.not_mem_nil
  intro hexp
  exact absurd (hexpanded.symm.trans hexp) Bool.false_ne_true

theorem root (position : Position) : Balanced (root position) := fresh rfl rfl

/-- A finished position may be visited any number of times. -/
theorem visit_over {position : Position} (h : Balanced s) (hleaf : s.top.expanded = false)
    (hposition : s.top.position = some position) (hover : position.isOver = true)
    (outcome : Single) : Balanced (s.along (.visit outcome) []) := by
  cases h with
  | @mk n bs tallied bare branch =>
    refine .mk ⟨?_, ?_⟩ bare branch
    · intro hexp
      exact absurd (hleaf.symm.trans hexp) Bool.false_ne_true
    · intro _ hgoes
      have hgoes := hgoes position hposition
      rw [hover] at hgoes
      cases hgoes

/-- The visits to a leaf that is expanded are its first one. -/
theorem visit_expanded {position : Position} (h : Balanced s) (hleaf : s.top.expanded = false)
    (hposition : s.top.position = some position) (hover : position.isOver = false)
    (policy : List Single) (outcome : Single) :
    Balanced ((expand policy position s).along (.visit outcome) []) := by
  obtain ⟨n, bs⟩ := s
  have hnone : n.visits = 0 := by
    refine h.tallied.leaf hleaf fun known hknown => ?_
    rw [Option.some.inj (hknown.symm.trans hposition)]
    exact hover
  have hfresh : ∀ b ∈ freshBranches policy position, ∃ prior,
      b.2 = node (.unvisited prior) [] := by
    rintro ⟨m, below⟩ hb
    exact eq_of_mem_freshBranches hb
  have hbelow : visitsBelow (freshBranches policy position) = 0 := by
    refine List.sum_eq_zero fun visits hvisits => ?_
    obtain ⟨b, hb, rfl⟩ := List.mem_map.mp hvisits
    obtain ⟨prior, hprior⟩ := hfresh b hb
    rw [hprior]
    rfl
  rw [expand_of_unexpanded hleaf]
  refine .mk ⟨fun _ => ?_, fun hfalse => ?_⟩ (fun hfalse => ?_) fun b hb => ?_
  · show n.visits + 1 = 1 + visitsBelow (freshBranches policy position)
    omega
  · cases hfalse
  · cases hfalse
  · obtain ⟨prior, hprior⟩ := hfresh b hb
    rw [hprior]
    exact fresh rfl rfl

/-- A node and its branches may get the same number of visits more. -/
theorem replace {k : Nat} (h : Balanced (node n bs)) (hexpanded : n'.expanded = n.expanded)
    (hposition : ∀ position, n.position = some position → n'.position = some position)
    (hvisits : n'.visits = n.visits + k) (hbelow : visitsBelow bs' = visitsBelow bs + k)
    (hleaf : n.expanded = false → k = 0) (hlength : bs'.length = bs.length)
    (hbranch : ∀ b ∈ bs', Balanced b.2) : Balanced (node n' bs') := by
  cases h with
  | mk tallied bare _ =>
    refine .mk ⟨?_, ?_⟩ ?_ hbranch
    · intro hexp
      have hinner : n.visits = 1 + visitsBelow bs := tallied.inner (hexpanded.symm.trans hexp)
      show n'.visits = 1 + visitsBelow bs'
      omega
    · intro hexp hknown
      have hexp : n.expanded = false := hexpanded.symm.trans hexp
      have hnone : n.visits = 0 :=
        tallied.leaf hexp fun position hpos => hknown position (hposition position hpos)
      have hk := hleaf hexp
      show n'.visits = 0
      omega
    · intro hexp
      rw [bare (hexpanded.symm.trans hexp)] at hlength
      exact List.length_eq_zero_iff.mp hlength

/-- What is known of the top may change if its visits are counted as before. -/
theorem top (h : Balanced (node n bs)) (hexpanded : n'.expanded = n.expanded)
    (hposition : ∀ position, n.position = some position → n'.position = some position)
    (hvisits : n'.visits = n.visits) : Balanced (node n' bs) :=
  h.replace (k := 0) hexpanded hposition hvisits rfl (fun _ => rfl) rfl fun _ hb => h.branch hb

/-- Along a path all nodes may get the same number of visits, if the tree is balanced at the end. -/
theorem along_modifyAt {k : Nat} (hexpanded : ∀ n, (f n).expanded = n.expanded)
    (hposition : ∀ n, (f n).position = n.position) (hvisits : ∀ n, (f n).visits = n.visits + k)
    (h : Balanced t) (hs : t.at? path = some s) (hsame : (g s).top.visits = s.top.visits)
    (hend : Balanced ((g s).along f [])) :
    Balanced ((t.modifyAt g path).along f path) ∧
      ((t.modifyAt g path).along f path).top.visits = t.top.visits + k := by
  induction path generalizing t with
  | nil =>
    cases hs
    refine ⟨hend, ?_⟩
    rw [top_along, hvisits]
    exact congrArg (· + k) hsame
  | cons i path ih =>
    obtain ⟨n, bs⟩ := t
    obtain ⟨m, below, hi, hbelow⟩ := at?_cons_eq_some.mp hs
    have hmem : (m, below) ∈ bs := List.mem_of_getElem? hi
    obtain ⟨hbalanced, hcount⟩ := ih (h.branch hmem) hbelow
    rw [along_modifyAt_cons]
    refine ⟨h.replace (hexpanded n) (fun _ hpos => (hposition n).trans hpos) (hvisits n)
      (visitsBelow_modify hi hcount) ?_ (List.length_modify ..) ?_, hvisits n⟩
    · intro hleaf
      rw [h.expanded hmem] at hleaf
      cases hleaf
    · intro b hb
      obtain ⟨j, hj⟩ := List.mem_iff_getElem?.mp hb
      rw [List.getElem?_modify] at hj
      obtain ⟨old, hold, rfl⟩ := Option.map_eq_some_iff.mp hj
      split
      · rename_i hij
        subst hij
        rw [hi] at hold
        cases hold
        exact hbalanced
      · exact h.branch (List.mem_of_getElem? hold)

theorem along {k : Nat} (hexpanded : ∀ n, (f n).expanded = n.expanded)
    (hposition : ∀ n, (f n).position = n.position) (hvisits : ∀ n, (f n).visits = n.visits + k)
    (h : Balanced t) (hs : t.at? path = some s) (hend : Balanced (s.along f [])) :
    Balanced (t.along f path) := by
  have hbalanced := (along_modifyAt (g := id) hexpanded hposition hvisits h hs rfl hend).1
  rwa [modifyAt_id] at hbalanced

theorem modifyAt (h : Balanced t) (hs : t.at? path = some s)
    (hsame : (g s).top.visits = s.top.visits) (hend : Balanced (g s)) :
    Balanced (t.modifyAt g path) := by
  rw [← along_id [] (g s)] at hend
  have hbalanced := (along_modifyAt (k := 0) (f := id) (fun _ => rfl) (fun _ => rfl)
    (fun _ => rfl) h hs hsame hend).1
  rwa [along_id] at hbalanced

/-- New priors are no visits. -/
theorem mapPriors (h : Balanced (node n bs)) (f : Single → Single → Single) (xs : List Single) :
    Balanced (node n (mapPriors f bs xs)) := by
  have hlength : (Tree.mapPriors f bs xs).length = bs.length := by
    have hmoves := congrArg List.length (moves_mapPriors f bs xs)
    rwa [List.length_map, List.length_map] at hmoves
  refine h.replace (k := 0) rfl (fun _ h => h) rfl (visitsBelow_mapPriors f bs xs) (fun _ => rfl)
    hlength ?_
  intro b hb
  obtain ⟨i, hi⟩ := List.mem_iff_getElem?.mp hb
  obtain ⟨prior, hprior⟩ := exists_getElem?_mapPriors f bs xs i
  rw [hprior] at hi
  obtain ⟨⟨m, n', cs⟩, hold, rfl⟩ := Option.map_eq_some_iff.mp hi
  exact (h.branch (List.mem_of_getElem? hold)).top rfl (fun _ h => h) rfl

theorem reverse (h : Balanced t) : Balanced t.reverse := by
  induction h with
  | @mk n bs tallied bare branch ih =>
    refine (Balanced.mk tallied bare branch).replace (k := 0) rfl (fun _ h => h) rfl
      (visitsBelow_reverse bs) (fun _ => rfl) ?_ ?_
    · rw [List.length_reverse, reverseAll_eq_map, List.length_map]
    · intro b hb
      rw [reverseAll_eq_map, List.mem_reverse] at hb
      obtain ⟨old, hold, rfl⟩ := List.mem_map.mp hb
      exact ih old hold

theorem know {position : Position} (h : Balanced s)
    (hknown : ∀ known, s.top.position = some known → known = position) :
    Balanced (s.know position) := by
  obtain ⟨n, bs⟩ := s
  exact h.top rfl (fun known hk => congrArg some (hknown known hk).symm) rfl

end Balanced

theorem Change.balanced (hchange : Change t t') (h : Balanced t) : Balanced t' := by
  have hlosses : ∀ {f : Node → Node} {s : Tree} {path : Path},
      (∀ n, (f n).expanded = n.expanded) → (∀ n, (f n).position = n.position) →
      (∀ n, (f n).visits = n.visits) → t.at? path = some s → Balanced (t.along f path) := by
    intro f s path hexpanded hposition hvisits hs
    refine h.along (k := 0) hexpanded hposition hvisits hs ?_
    obtain ⟨n, bs⟩ := s
    exact (h.at_path hs).top (hexpanded n) (fun _ hpos => (hposition n).trans hpos) (hvisits n)
  cases hchange with
  | @know _ s path position hs hleaf hknown =>
    refine h.modifyAt hs ?_ ((h.at_path hs).know hknown)
    obtain ⟨n, bs⟩ := s
    rfl
  | finish hs hleaf hposition hover outcome =>
    exact h.along (fun _ => rfl) (fun _ => rfl) (fun _ => rfl) hs
      ((h.at_path hs).visit_over hleaf hposition hover outcome)
  | addLoss hs => exact hlosses (fun _ => rfl) (fun _ => rfl) (fun _ => rfl) hs
  | takeLoss hs => exact hlosses (fun _ => rfl) (fun _ => rfl) (fun _ => rfl) hs
  | @expand _ s path position hs hleaf hbare hposition hover policy outcome =>
    refine (Balanced.along_modifyAt (k := 1) (f := .visit outcome) (fun _ => rfl) (fun _ => rfl)
      (fun _ => rfl) h hs ?_
      ((h.at_path hs).visit_expanded hleaf hposition hover policy outcome)).1
    obtain ⟨n, bs⟩ := s
    rw [Tree.expand]
    split <;> rfl
  | reprior f n bs xs => exact h.mapPriors f xs

theorem Changes.balanced (hchanges : Changes t t') (h : Balanced t) : Balanced t' := by
  induction hchanges with
  | refl => exact h
  | tail _ hchange ih => exact hchange.balanced ih

end Tree

end Goban
