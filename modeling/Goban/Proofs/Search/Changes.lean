import Mathlib.Logic.Relation
import Goban.Proofs.Search.Growth

/-!
# Changes of a search tree

All that a search does to a tree is a sequence of a few changes (`Tree.Change`): the position of a
leaf becomes known, a finished position is visited, visits under way begin and end along a path, a
leaf is expanded with its first visit, and the branches at the top get new priors. None of them
moves a branch or takes one away, so every node stays where it is, and stays expanded if it was
(`Tree.Changes.keeps`).
-/

namespace Goban

namespace Tree

variable {n n' : Node} {bs bs' : List (Move × Tree)} {t t' t'' s : Tree} {path : Path}
  {position : Position} {f : Node → Node} {g : Tree → Tree} {i : Nat}

/-- The moves on a path. -/
def moves : Path → Tree → List Move
  | [], _ => []
  | i :: path, node _ bs =>
    match bs[i]? with
    | some (m, t) => m :: moves path t
    | none => []

/-- The node at a path was expanded. -/
def IsExpanded (path : Path) (t : Tree) : Prop :=
  ∃ s, t.at? path = some s ∧ s.top.expanded = true

/-- What the search does to a tree. -/
inductive Change : Tree → Tree → Prop where
  | know {t s : Tree} {path : Path} {position : Position} (hs : t.at? path = some s)
      (hleaf : s.top.expanded = false)
      (hknown : ∀ known, s.top.position = some known → known = position) :
      Change t (t.modifyAt (Tree.know position) path)
  | finish {t s : Tree} {path : Path} {position : Position} (hs : t.at? path = some s)
      (hleaf : s.top.expanded = false) (hposition : s.top.position = some position)
      (hover : position.isOver = true) (outcome : Single) :
      Change t (t.along (.visit outcome) path)
  | addLoss {t s : Tree} {path : Path} (hs : t.at? path = some s) :
      Change t (t.along .addLoss path)
  | takeLoss {t s : Tree} {path : Path} (hs : t.at? path = some s) :
      Change t (t.along .takeLoss path)
  | expand {t s : Tree} {path : Path} {position : Position} (hs : t.at? path = some s)
      (hleaf : s.top.expanded = false) (hbare : s.branches = [])
      (hposition : s.top.position = some position) (hover : position.isOver = false)
      (policy : List Single) (outcome : Single) :
      Change t ((t.modifyAt (Tree.expand policy position) path).along (.visit outcome) path)
  | reprior (f : Single → Single → Single) (n : Node) (bs : List (Move × Tree))
      (xs : List Single) : Change (node n bs) (node n (mapPriors f bs xs))

/-- Several changes one after the other. -/
abbrev Changes : Tree → Tree → Prop := Relation.ReflTransGen Change

/-! ## One branch at a time -/

theorem at?_cons (n : Node) (bs : List (Move × Tree)) (i : Nat) (path : Path) :
    (node n bs).at? (i :: path) = bs[i]?.bind fun b => b.2.at? path := by
  rw [at?]
  cases bs[i]? <;> rfl

/-- A node below the top lies below one of the branches. -/
theorem at?_cons_eq_some : (node n bs).at? (i :: path) = some s ↔
    ∃ m below, bs[i]? = some (m, below) ∧ below.at? path = some s := by
  rw [at?_cons, Option.bind_eq_some_iff]
  constructor
  · rintro ⟨⟨m, below⟩, hi, hs⟩
    exact ⟨m, below, hi, hs⟩
  · rintro ⟨m, below, hi, hs⟩
    exact ⟨(m, below), hi, hs⟩

theorem isExpanded_nil : t.IsExpanded [] ↔ t.top.expanded = true := by
  constructor
  · rintro ⟨s, hs, hexpanded⟩
    cases hs
    exact hexpanded
  · intro hexpanded
    exact ⟨t, rfl, hexpanded⟩

theorem moves_cons {m : Move} {below : Tree} (hi : bs[i]? = some (m, below)) (path : Path) :
    (node n bs).moves (i :: path) = m :: below.moves path := by
  rw [moves, hi]

theorem modifyAt_id (path : Path) (t : Tree) : t.modifyAt id path = t := by
  induction path generalizing t with
  | nil => rfl
  | cons i path ih =>
    obtain ⟨n, bs⟩ := t
    rw [modifyAt]
    simp only [ih]
    exact congrArg (node n) (List.modify_id i bs)

theorem along_id (path : Path) (t : Tree) : t.along id path = t := by
  induction path generalizing t with
  | nil =>
    obtain ⟨n, bs⟩ := t
    rfl
  | cons i path ih =>
    obtain ⟨n, bs⟩ := t
    rw [along]
    simp only [ih]
    exact congrArg (node n) (List.modify_id i bs)

theorem at?_modifyAt_self (g : Tree → Tree) (path : Path) (t : Tree) :
    (t.modifyAt g path).at? path = (t.at? path).map g := by
  induction path generalizing t with
  | nil => rfl
  | cons i path ih =>
    obtain ⟨n, bs⟩ := t
    rw [modifyAt, at?_cons, at?_cons, List.getElem?_modify]
    cases bs[i]? with
    | none => rfl
    | some b =>
      simp only [Option.map_eq_map, Option.map_some, if_true, Option.bind_some]
      exact ih b.2

/-- A change at the end of a path and then along it is one change along it. -/
theorem along_modifyAt_cons (f : Node → Node) (g : Tree → Tree) (i : Nat) (path : Path) :
    ((node n bs).modifyAt g (i :: path)).along f (i :: path) =
      node (f n) (bs.modify i fun b => (b.1, (b.2.modifyAt g path).along f path)) := by
  rw [modifyAt, along, List.modify_modify_eq]
  rfl

/-! ## Nodes stay where they are -/

/-- The second tree has all nodes of the first one, by the same moves, and those that were expanded
are so. -/
def Keeps (t t' : Tree) : Prop :=
  ∀ path s, t.at? path = some s → ∃ s', t'.at? path = some s' ∧
    (s.top.expanded = true → s'.top.expanded = true) ∧ t'.moves path = t.moves path

namespace Keeps

theorem isExpanded (h : t.Keeps t') (hpath : t.IsExpanded path) : t'.IsExpanded path := by
  obtain ⟨s, hs, hexpanded⟩ := hpath
  obtain ⟨s', hs', hkept, -⟩ := h path s hs
  exact ⟨s', hs', hkept hexpanded⟩

theorem moves_eq (h : t.Keeps t') (hs : t.at? path = some s) : t'.moves path = t.moves path := by
  obtain ⟨-, -, -, hmoves⟩ := h path s hs
  exact hmoves

theorem refl (t : Tree) : t.Keeps t := fun _ s hs => ⟨s, hs, id, rfl⟩

theorem trans (h : t.Keeps t') (h' : t'.Keeps t'') : t.Keeps t'' := by
  intro path s hs
  obtain ⟨s', hs', hkept, hmoves⟩ := h path s hs
  obtain ⟨s'', hs'', hkept', hmoves'⟩ := h' path s' hs'
  exact ⟨s'', hs'', hkept' ∘ hkept, hmoves'.trans hmoves⟩

theorem of_branches (hexpanded : n.expanded = true → n'.expanded = true)
    (hbranch : ∀ (i : Nat) (m : Move) (below : Tree), bs[i]? = some (m, below) →
      ∃ below' : Tree, bs'[i]? = some (m, below') ∧ below.Keeps below') :
    (node n bs).Keeps (node n' bs') := by
  intro path s hs
  cases path with
  | nil =>
    cases hs
    exact ⟨_, rfl, hexpanded, rfl⟩
  | cons i path =>
    obtain ⟨m, below, hi, hbelow⟩ := at?_cons_eq_some.mp hs
    obtain ⟨below', hi', hkeeps⟩ := hbranch i m below hi
    obtain ⟨s', hs', hkept, hmoves⟩ := hkeeps path s hbelow
    refine ⟨s', at?_cons_eq_some.mpr ⟨m, below', hi', hs'⟩, hkept, ?_⟩
    rw [moves_cons hi, moves_cons hi', hmoves]

theorem top (n n' : Node) (hexpanded : n.expanded = true → n'.expanded = true)
    (bs : List (Move × Tree)) : (node n bs).Keeps (node n' bs) :=
  of_branches hexpanded fun _ _ below hi => ⟨below, hi, refl below⟩

theorem know (position : Position) (t : Tree) : t.Keeps (t.know position) := by
  obtain ⟨n, bs⟩ := t
  exact top n { n with position := some position } id bs

/-- A tree without branches that was not expanded has only its top to keep. -/
theorem of_bare (hleaf : s.top.expanded = false) (hbare : s.branches = []) (t : Tree) :
    s.Keeps t := by
  intro path s' hs'
  obtain ⟨n, bs⟩ := s
  cases path with
  | nil =>
    cases hs'
    refine ⟨t, rfl, fun hexp => ?_, rfl⟩
    exact absurd (hleaf.symm.trans hexp) Bool.false_ne_true
  | cons i path =>
    obtain rfl : bs = [] := hbare
    cases hs'

/-- A change along a path and at its end keeps what it keeps at its end. -/
theorem along_modifyAt (hexpanded : ∀ n, (f n).expanded = n.expanded)
    (hs : t.at? path = some s) (hend : s.Keeps ((g s).along f [])) :
    t.Keeps ((t.modifyAt g path).along f path) := by
  induction path generalizing t with
  | nil =>
    cases hs
    exact hend
  | cons i path ih =>
    obtain ⟨n, bs⟩ := t
    obtain ⟨m, below, hi, hbelow⟩ := at?_cons_eq_some.mp hs
    rw [along_modifyAt_cons]
    refine of_branches (fun h => (hexpanded n).trans h) ?_
    intro j m' below' hj
    rw [List.getElem?_modify, hj]
    by_cases hij : i = j
    · subst hij
      rw [hi] at hj
      cases hj
      exact ⟨_, congrArg some (if_pos rfl), ih hbelow⟩
    · exact ⟨_, congrArg some (if_neg hij), refl below'⟩

theorem along (hexpanded : ∀ n, (f n).expanded = n.expanded) (hs : t.at? path = some s) :
    t.Keeps (t.along f path) := by
  have hend : s.Keeps (s.along f []) := by
    obtain ⟨n, bs⟩ := s
    exact top n (f n) (fun hexp => (hexpanded n).trans hexp) bs
  have hkeeps := along_modifyAt (g := id) hexpanded hs hend
  rwa [modifyAt_id] at hkeeps

theorem modifyAt (hs : t.at? path = some s) (hend : s.Keeps (g s)) :
    t.Keeps (t.modifyAt g path) := by
  rw [← along_id [] (g s)] at hend
  have hkeeps := along_modifyAt (f := id) (fun _ => rfl) hs hend
  rwa [along_id] at hkeeps

end Keeps

theorem Change.keeps (h : Change t t') : t.Keeps t' := by
  cases h with
  | @know _ s path position hs =>
    exact Keeps.modifyAt hs (.know position s)
  | finish hs => exact Keeps.along (fun _ => rfl) hs
  | addLoss hs => exact Keeps.along (fun _ => rfl) hs
  | takeLoss hs => exact Keeps.along (fun _ => rfl) hs
  | expand hs hleaf hbare =>
    exact Keeps.along_modifyAt (fun _ => rfl) hs (.of_bare hleaf hbare _)
  | reprior f n bs xs =>
    refine Keeps.of_branches id ?_
    intro i m below hi
    obtain ⟨prior, hprior⟩ := exists_getElem?_mapPriors f bs xs i
    rw [hprior, hi]
    obtain ⟨n', cs⟩ := below
    exact ⟨_, rfl, Keeps.top n' { n' with prior := prior n' } id cs⟩

theorem Changes.keeps (h : Changes t t') : t.Keeps t' := by
  induction h with
  | refl => exact .refl t
  | tail _ hchange ih => exact ih.trans hchange.keeps

end Tree

end Goban
