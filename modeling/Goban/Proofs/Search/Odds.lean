import Goban.Proofs.Search.Transplant

/-!
# Priors of a search tree

The branches of a node have the priors that they were given when the node was expanded
(`Tree.IsGiven`): the shares of the legal moves in what the model said of its position. A search
gives priors to the nodes that it expands and leaves those of all others as they are
(`Tree.Develops`), whatever it does along its paths. In a mirror image the branches have the same
priors (`Tree.IsGiven.reverse`); noise changes those below the top and no others
(`Tree.exists_at?_of_mapPriors`).
-/

namespace Goban

namespace Tree

variable {u : List Path} {n n' : Node} {bs bs' : List (Move × Tree)} {t t' t'' s s' : Tree}
  {path : Path} {i : Nat} {f : Node → Node} {g : Tree → Tree} {position root : Position}
  {e : Evaluation} {o : PlayerOptions} {leaf : Leaf} {leaves leaves' : List Leaf} {count : Nat}
  {said : Position → Evaluation → Prop}

/-- The moves and the priors of the branches. -/
def odds (t : Tree) : List (Move × Single) := t.branches.map fun b => (b.1, b.2.top.prior)

/-- The legal moves with the priors that a policy gives them. -/
def givenOdds (policy : List Single) (position : Position) : List (Move × Single) :=
  position.legalMoves.zip (priors policy position.legalMoves)

/-- If the top was expanded, its branches have the priors that they were given then. -/
def IsGiven (said : Position → Evaluation → Prop) (t : Tree) : Prop :=
  t.top.expanded = true → ∃ position e, t.top.position = some position ∧ said position e ∧
    t.odds.Perm (givenOdds e.policy position)

theorem IsGiven.of_unexpanded (h : t.top.expanded = false) : IsGiven said t := by
  intro hexpanded
  rw [h] at hexpanded
  cases hexpanded

theorem IsGiven.congr (h : IsGiven said s) (hexpanded : s'.top.expanded = s.top.expanded)
    (hodds : s'.odds.Perm s.odds) (hposition : s'.top.position = s.top.position) :
    IsGiven said s' := by
  intro hexpanded'
  rw [hposition]
  obtain ⟨position, e, hs, hsaid, hperm⟩ := h (hexpanded.symm.trans hexpanded')
  exact ⟨position, e, hs, hsaid, hodds.trans hperm⟩

theorem odds_freshBranches (policy : List Single) (position : Position) :
    (freshBranches policy position).map (fun b => (b.1, b.2.top.prior)) =
      (givenOdds policy position).reverse := by
  unfold freshBranches givenOdds
  rw [List.map_reverse, List.map_zipWith, List.zip]
  rfl

/-- A node gets its priors when it is expanded. -/
theorem isGiven_expand (hleaf : t.top.expanded = false) (hposition : t.top.position = some position)
    (hsaid : said position e) : IsGiven said (expand e.policy position t) := by
  obtain ⟨n, bs⟩ := t
  rw [expand_of_unexpanded hleaf]
  intro _
  refine ⟨position, e, hposition, hsaid, ?_⟩
  rw [odds, branches, odds_freshBranches]
  exact List.reverse_perm _

/-! ## Priors of a tree that develops -/

/-- What becomes of the tree at a path: one that was expanded keeps the priors of its branches and
its position, and one that has been expanded since was given its priors. -/
structure Passes (said : Position → Evaluation → Prop) (old new : Option Tree) : Prop where
  kept : ∀ s, old = some s → s.top.expanded = true → ∃ s', new = some s' ∧
    s'.top.expanded = true ∧ s'.odds = s.odds ∧ s'.top.position = s.top.position
  fresh : ∀ s', new = some s' → s'.top.expanded = true →
    (∃ s, old = some s ∧ s.top.expanded = true) ∨ IsGiven said s'

theorem Passes.isGiven {old new : Option Tree} (h : Passes said old new)
    (hold : ∀ s, old = some s → IsGiven said s) (hs' : new = some s') : IsGiven said s' := by
  intro hexpanded'
  rcases h.fresh s' hs' hexpanded' with ⟨s, hs, hexpanded⟩ | hgiven
  · -- It was given its priors before, and has kept them.
    obtain ⟨s'', hs'', -, hodds, hposition⟩ := h.kept s hs hexpanded
    obtain rfl := Option.some.inj (hs''.symm.trans hs')
    exact (hold s hs).congr (hexpanded'.trans hexpanded.symm) (.of_eq hodds) hposition hexpanded'
  · exact hgiven hexpanded'

/-- The second tree comes out of the first one by changes that give no node new priors for its
branches but when it is expanded. -/
def Develops (said : Position → Evaluation → Prop) (t t' : Tree) : Prop :=
  ∀ path, Passes said (t.at? path) (t'.at? path)

namespace Develops

theorem refl (t : Tree) : t.Develops said t := fun _ =>
  ⟨fun s hs hexpanded => ⟨s, hs, hexpanded, rfl, rfl⟩,
    fun s hs hexpanded => .inl ⟨s, hs, hexpanded⟩⟩

theorem trans (h : t.Develops said t') (h' : t'.Develops said t'') : t.Develops said t'' := by
  refine fun path => ⟨?_, ?_⟩
  · intro s hs hexpanded
    obtain ⟨s', hs', hexpanded', hodds, hposition⟩ := (h path).kept s hs hexpanded
    obtain ⟨s'', hs'', hexpanded'', hodds', hposition'⟩ := (h' path).kept s' hs' hexpanded'
    exact ⟨s'', hs'', hexpanded'', hodds'.trans hodds, hposition'.trans hposition⟩
  · intro s'' hs'' hexpanded''
    rcases (h' path).fresh s'' hs'' hexpanded'' with ⟨s', hs', hexpanded'⟩ | hgiven
    · rcases (h path).fresh s' hs' hexpanded' with hold | hgiven
      · exact .inl hold
      · refine .inr ((h' path).isGiven (fun s hs => ?_) hs'')
        rwa [Option.some.inj (hs.symm.trans hs')]
    · exact .inr hgiven

theorem of_branches (htop : n'.expanded = n.expanded ∧ n'.position = n.position)
    (hodds : (node n' bs').odds = (node n bs).odds)
    (hbranch : ∀ (i : Nat) (m : Move) (below : Tree), bs[i]? = some (m, below) →
      ∃ below' : Tree, bs'[i]? = some (m, below') ∧ below.Develops said below') :
    (node n bs).Develops said (node n' bs') := by
  have hlength : bs'.length = bs.length := by
    simpa [odds, branches] using congrArg List.length hodds
  intro path
  cases path with
  | nil =>
    constructor
    · intro s hs hexpanded
      cases hs
      exact ⟨_, rfl, htop.1.trans hexpanded, hodds, htop.2⟩
    · intro s' hs' hexpanded'
      cases hs'
      exact .inl ⟨_, rfl, htop.1.symm.trans hexpanded'⟩
  | cons i path =>
    rw [at?_cons, at?_cons]
    cases hi : bs[i]? with
    | none =>
      have hi' : bs'[i]? = none := by
        rw [List.getElem?_eq_none_iff] at hi ⊢
        omega
      rw [hi']
      constructor <;> (intro s hs; cases hs)
    | some b =>
      obtain ⟨m, below⟩ := b
      obtain ⟨below', hi', hdevelops⟩ := hbranch i m below hi
      rw [hi']
      exact hdevelops path

/-- The priors of the branches are the same if the one that changes keeps its own. -/
theorem odds_modify
    (h : ∀ m below, bs[i]? = some (m, below) → (g below).top.prior = below.top.prior) :
    (node n' (bs.modify i fun b => (b.1, g b.2))).odds = (node n bs).odds := by
  refine List.ext_getElem? fun j => ?_
  simp only [odds, branches, List.getElem?_map, List.getElem?_modify]
  cases hj : bs[j]? with
  | none => rfl
  | some b =>
    obtain ⟨m, below⟩ := b
    by_cases hij : i = j
    · subst hij
      simp [h m below hj]
    · simp [hij]

theorem prior_modifyAt (hs : t.at? path = some s) (hprior : (g s).top.prior = s.top.prior) :
    (t.modifyAt g path).top.prior = t.top.prior := by
  cases path with
  | nil =>
    cases hs
    exact hprior
  | cons i path =>
    obtain ⟨n, bs⟩ := t
    rfl

/-- A change along a path and at its end develops a tree as it does at the end. -/
theorem along_modifyAt
    (hf : ∀ n, (f n).expanded = n.expanded ∧ (f n).position = n.position ∧ (f n).prior = n.prior)
    (hs : t.at? path = some s) (hprior : (g s).top.prior = s.top.prior)
    (hend : s.Develops said ((g s).along f [])) :
    t.Develops said ((t.modifyAt g path).along f path) := by
  induction path generalizing t with
  | nil =>
    cases hs
    exact hend
  | cons i path ih =>
    obtain ⟨n, bs⟩ := t
    obtain ⟨m, below, hi, hbelow⟩ := at?_cons_eq_some.mp hs
    rw [along_modifyAt_cons]
    refine of_branches ⟨(hf n).1, (hf n).2.1⟩ ?_ ?_
    · refine odds_modify (g := fun below => (below.modifyAt g path).along f path) ?_
      intro m' below' hi'
      obtain ⟨rfl, rfl⟩ := Prod.mk.inj (Option.some.inj (hi.symm.trans hi'))
      rw [top_along, (hf _).2.2, prior_modifyAt hbelow hprior]
    · intro j m' below' hj
      rw [List.getElem?_modify, hj]
      by_cases hij : i = j
      · subst hij
        rw [hi] at hj
        cases hj
        exact ⟨_, congrArg some (if_pos rfl), ih hbelow⟩
      · exact ⟨_, congrArg some (if_neg hij), refl below'⟩

theorem along
    (hf : ∀ n, (f n).expanded = n.expanded ∧ (f n).position = n.position ∧ (f n).prior = n.prior)
    (hs : t.at? path = some s) : t.Develops said (t.along f path) := by
  have hend : s.Develops said (s.along f []) := by
    obtain ⟨n, bs⟩ := s
    exact of_branches ⟨(hf n).1, (hf n).2.1⟩ rfl fun _ _ below hi => ⟨below, hi, refl below⟩
  have hdevelops := along_modifyAt (g := id) hf hs rfl hend
  rwa [modifyAt_id] at hdevelops

theorem modifyAt (hs : t.at? path = some s) (hprior : (g s).top.prior = s.top.prior)
    (hend : s.Develops said (g s)) : t.Develops said (t.modifyAt g path) := by
  rw [← along_id [] (g s)] at hend
  have hdevelops := along_modifyAt (f := id) (fun _ => ⟨rfl, rfl, rfl⟩) hs hprior hend
  rwa [along_id] at hdevelops

/-- A node that was not expanded may learn its position. -/
theorem know (hs : t.at? path = some s) (hleaf : s.top.expanded = false) (position : Position) :
    t.Develops said (t.modifyAt (Tree.know position) path) := by
  refine modifyAt hs (by rw [top_know]) fun path => ?_
  obtain ⟨n, bs⟩ := s
  have hbare : ¬n.expanded = true := by
    rw [show n.expanded = false from hleaf]
    exact Bool.false_ne_true
  cases path with
  | nil =>
    constructor
    · intro s hs hexpanded
      cases hs
      exact absurd hexpanded hbare
    · intro s' hs' hexpanded'
      cases hs'
      exact absurd hexpanded' hbare
  | cons i path => exact refl (node n bs) (i :: path)

/-- A leaf may be expanded by what was said of its position. -/
theorem expand (hs : t.at? path = some s) (hleaf : s.top.expanded = false)
    (hbare : s.branches = []) (hposition : s.top.position = some position)
    (hsaid : said position e) :
    t.Develops said (t.modifyAt (Tree.expand e.policy position) path) := by
  have hgiven := isGiven_expand hleaf hposition hsaid
  refine modifyAt hs (by rw [top_expand]) fun path => ?_
  cases path with
  | nil =>
    constructor
    · intro s' hs' hexpanded
      cases hs'
      rw [hleaf] at hexpanded
      cases hexpanded
    · intro s' hs' _
      cases hs'
      exact .inr hgiven
  | cons i path =>
    obtain ⟨n, bs⟩ := s
    obtain rfl : bs = [] := hbare
    constructor
    · intro s hs
      cases hs
    · intro s' hs' hexpanded'
      rw [expand_of_unexpanded hleaf] at hs'
      obtain ⟨m, below, hi, hbelow⟩ := at?_cons_eq_some.mp hs'
      obtain ⟨prior, rfl⟩ := eq_of_mem_freshBranches (List.mem_of_getElem? hi)
      cases path with
      | nil =>
        cases hbelow
        cases hexpanded'
      | cons j path => cases hbelow

end Develops

/-! ## Priors in a search -/

/-- Nothing that is gathered gets new priors for its branches. -/
theorem Grown.develops_gather (h : Grown u t) (hroot : t.top.position = some root)
    (hgather : gather o count t leaves = .ok (leaves', t')) : t.Develops said t' := by
  induction count generalizing u t leaves with
  | zero =>
    cases hgather
    exact .refl _
  | succ count ih =>
    obtain ⟨leaf, t₁, hselect, hgrown, hroot₁, hextends, hlearned, s, hs, -, hleaf⟩ :=
      h.exists_select (o := o) fun known hknown => Option.some.inj (hknown.symm.trans hroot)
    have hknows : t.Develops said t₁ := by
      obtain ⟨s₀, hs₀, rfl⟩ := Option.map_eq_some_iff.mp <|
        (at?_modifyAt_self (Tree.know leaf.position) leaf.path t).symm.trans (hlearned ▸ hs)
      rw [hlearned]
      refine .know hs₀ ?_ leaf.position
      rwa [top_know] at hleaf
    rw [gather, selectLeaf, hroot] at hgather
    simp only [hselect, bind, Except.bind] at hgather
    split at hgather
    · have hvisit : t₁.Develops said (t₁.along (.visit (finalOutcome leaf.position)) leaf.path) :=
        .along (fun _ => ⟨rfl, rfl, rfl⟩) hs
      refine (hknows.trans hvisit).trans (ih (hgrown.visit _ _) ?_ hgather)
      rw [top_along]
      exact hroot₁
    · split at hgather
      · cases hgather
        exact hknows
      · have hadd : t₁.Develops said (t₁.along .addLoss leaf.path) :=
          .along (fun _ => ⟨rfl, rfl, rfl⟩) hs
        refine (hknows.trans hadd).trans (ih (hgrown.addLoss _) ?_ hgather)
        rw [top_along]
        exact hroot₁

/-- A leaf that waits is given its priors when its evaluation is absorbed. -/
theorem Gathered.develops_absorb (h : t.Gathered (leaf :: leaves)) (hsaid : said leaf.position e)
    (habsorb : absorb leaf e t = .ok t') : t.Develops said t' := by
  obtain ⟨-, s₀, hs₀, hposition₀, hexpanded₀⟩ := h.waits leaf List.mem_cons_self
  have htake : t.Develops said (t.along .takeLoss leaf.path) :=
    .along (fun _ => ⟨rfl, rfl, rfl⟩) hs₀
  obtain ⟨s, hs, hexpanded, hposition⟩ := Extends.takeLoss leaf.path t leaf.path s₀ hs₀
  have hleaf := hexpanded.trans hexpanded₀
  have hbare : s.branches = [] := by
    obtain ⟨u', hgrown, -⟩ := h.grown.takeLoss.exists_at hs
    exact hgrown.sound.bare hleaf
  have hexpand := Develops.expand hs hleaf hbare (hposition _ hposition₀) hsaid
  have hnew := at?_modifyAt_self (expand e.policy leaf.position) leaf.path
    (t.along .takeLoss leaf.path)
  rw [hs, Option.map_some] at hnew
  unfold absorb at habsorb
  split at habsorb
  · cases habsorb
  simp only [hs] at habsorb
  split at habsorb <;> cases habsorb
  exact (htake.trans hexpand).trans (.along (fun _ => ⟨rfl, rfl, rfl⟩) hnew)

/-! ## Mirror images and noise -/

theorem odds_reverse (t : Tree) : t.reverse.odds = t.odds.reverse := by
  rw [odds, odds, branches_reverse, reverseAll_eq_map, List.map_reverse, List.map_map]
  congr 1
  refine List.map_congr_left fun b _ => ?_
  rw [Function.comp_apply, top_reverse]

/-- The mirror image of a node has the same priors. -/
theorem IsGiven.reverse (h : IsGiven said s) : IsGiven said s.reverse := by
  refine h.congr (by rw [top_reverse]) ?_ (by rw [top_reverse])
  rw [odds_reverse]
  exact List.reverse_perm _

/-- Every node of a mirror image is the mirror image of a node. -/
theorem exists_at?_of_reverse (hs' : t.reverse.at? path = some s') :
    ∃ path' s, t.at? path' = some s ∧ s' = s.reverse ∧ (path' = [] ↔ path = []) := by
  obtain ⟨path', ⟨⟨s, hs⟩, hmirror⟩, -⟩ := existsUnique_mirror hs'
  obtain ⟨hat, -⟩ := at?_reverse_mirror hs
  rw [hmirror, hs'] at hat
  refine ⟨path', s, hs, Option.some.inj hat, ?_⟩
  rw [← hmirror]
  obtain ⟨n, bs⟩ := t
  cases path' with
  | nil => exact iff_of_true rfl rfl
  | cons i path' =>
    obtain ⟨m, below, hi, -⟩ := at?_cons_eq_some.mp hs
    rw [mirror_cons hi]
    exact iff_of_false nofun nofun

/-- New priors below the top are priors of no other node's branches. -/
theorem exists_at?_of_mapPriors {f : Single → Single → Single} {xs : List Single}
    (hs' : (node n' (mapPriors f bs xs)).at? (i :: path) = some s') :
    ∃ s, (node n bs).at? (i :: path) = some s ∧ s'.top.expanded = s.top.expanded ∧
      s'.odds = s.odds ∧ s'.top.position = s.top.position := by
  obtain ⟨m, below', hi, hbelow'⟩ := at?_cons_eq_some.mp hs'
  rw [getElem?_mapPriors] at hi
  obtain ⟨⟨move, below⟩, hold, heq⟩ := Option.map_eq_some_iff.mp hi
  cases heq
  cases path with
  | nil =>
    cases hbelow'
    obtain ⟨k, cs⟩ := below
    exact ⟨_, at?_cons_eq_some.mpr ⟨move, _, hold, rfl⟩, rfl, rfl, rfl⟩
  | cons j path =>
    rw [at?_along_nil] at hbelow'
    exact ⟨s', at?_cons_eq_some.mpr ⟨move, below, hold, hbelow'⟩, rfl, rfl, rfl⟩

/-- Noise changes each prior below the top by its share. -/
theorem odds_mapPriors (n : Node) (f : Single → Single → Single) {xs : List Single}
    (hlength : xs.length = bs.length) :
    (node n (mapPriors f bs xs)).odds =
      List.zipWith (fun b x => (b.1, f b.2 x)) (node n bs).odds xs := by
  induction bs generalizing xs with
  | nil =>
    obtain rfl := List.length_eq_zero_iff.mp hlength
    rfl
  | cons b bs ih =>
    obtain ⟨m, k, cs⟩ := b
    cases xs with
    | nil => cases hlength
    | cons x xs => exact congrArg (_ :: ·) (ih (Nat.succ.inj hlength))

end Tree

end Goban
