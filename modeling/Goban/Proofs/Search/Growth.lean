import Goban.Proofs.Rules.Legal
import Goban.Proofs.Search.Copies
import Goban.Search.Expansion

/-!
# Search trees in order

A node of a search tree is in order (`Tree.Sound`) if it has a branch for each legal move once it
was expanded and none before, if the positions below it follow from its own, and if it carries a
virtual loss for each visit under way through it. A tree is *grown* (`Tree.Grown`) if all its nodes
are in order for the given paths of visits under way. Every change of the search is made along one
path, so it suffices to look at one branch (`Tree.Grown.modify`).
-/

namespace Goban

namespace Tree

variable {u u' : List Path} {n n' : Node} {bs : List (Move × Tree)} {t : Tree} {i : Nat}

/-- What goes on below the branch at a place, of several paths. -/
def under (i : Nat) (paths : List Path) : List Path :=
  paths.filterMap fun path =>
    match path with
    | [] => none
    | j :: rest => if j = i then some rest else none

@[simp] theorem under_nil (i : Nat) : under i [] = [] := rfl

theorem under_cons_self (i : Nat) (path : Path) (u : List Path) :
    under i ((i :: path) :: u) = path :: under i u := by
  simp [under]

theorem under_cons_of_ne {j : Nat} (h : j ≠ i) (path : Path) (u : List Path) :
    under i ((j :: path) :: u) = under i u := by
  simp [under, h]

theorem under_replicate_nil (k : Nat) (u : List Path) :
    under i (List.replicate k [] ++ u) = under i u := by
  induction k with
  | zero => rfl
  | succ k ih => exact ih

theorem under_replicate_self {path : Path} (k : Nat) :
    under i (List.replicate k (i :: path) ++ u) = List.replicate k path ++ under i u := by
  induction k with
  | zero => rfl
  | succ k ih =>
    rw [List.replicate_succ, List.cons_append, under_cons_self, ih]
    rfl

theorem under_replicate_of_ne {j k : Nat} {path : Path} (h : j ≠ i) :
    under i (List.replicate k (j :: path) ++ u) = under i u := by
  induction k with
  | zero => rfl
  | succ k ih => rw [List.replicate_succ, List.cons_append, under_cons_of_ne h, ih]

theorem top_along (f : Node → Node) (path : Path) (t : Tree) : (t.along f path).top = f t.top := by
  obtain ⟨n, bs⟩ := t
  cases path <;> rfl

theorem mem_under {path : Path} : path ∈ under i u ↔ i :: path ∈ u := by
  unfold under
  rw [List.mem_filterMap]
  constructor
  · rintro ⟨whole, hmem, h⟩
    match whole, h with
    | j :: rest, h =>
      simp only [Option.ite_none_right_eq_some, Option.some.injEq] at h
      obtain ⟨rfl, rfl⟩ := h
      exact hmem
  · intro hmem
    exact ⟨_, hmem, by simp⟩

/-- A node in order, for a number of visits under way. -/
structure Sound (losses : Nat) (t : Tree) : Prop where
  losses : t.top.virtualLosses = losses
  bare : t.top.expanded = false → t.branches = []
  full : t.top.expanded = true → ∃ pos, t.top.position = some pos ∧ pos.isOver = false ∧
    (t.branches.map (·.1)).Perm pos.legalMoves
  follows : ∀ m below, (m, below) ∈ t.branches → ∀ next, below.top.position = some next →
    ∃ pos, t.top.position = some pos ∧ pos.play m = .ok next

theorem Sound.branches_ne_nil {losses : Nat} (h : Sound losses t)
    (hexpanded : t.top.expanded = true) : t.branches ≠ [] := by
  obtain ⟨pos, -, hover, hmoves⟩ := h.full hexpanded
  intro hnil
  rw [hnil] at hmoves
  exact Position.legalMoves_ne_nil hover hmoves.symm.eq_nil

/-- The move of every branch can be played, and leads to the position below if that is known. -/
theorem Sound.exists_play {losses : Nat} {m : Move} {below : Tree} (h : Sound losses t)
    (hmem : (m, below) ∈ t.branches) :
    ∃ pos next, t.top.position = some pos ∧ pos.play m = .ok next ∧
      ∀ known, below.top.position = some known → known = next := by
  have hexp : t.top.expanded = true := by
    by_contra hexp
    rw [h.bare ((Bool.not_eq_true _).mp hexp)] at hmem
    cases hmem
  obtain ⟨pos, hpos, -, hmoves⟩ := h.full hexp
  obtain ⟨next, hplay⟩ := Position.exists_play_of_mem_legalMoves
    (hmoves.subset (List.mem_map_of_mem hmem))
  refine ⟨pos, next, hpos, hplay, ?_⟩
  intro known hknown
  obtain ⟨above, habove, hplayed⟩ := h.follows m below hmem known hknown
  rw [hpos] at habove
  cases habove
  rw [hplay] at hplayed
  exact (Except.ok.inj hplayed).symm

/-- A tree whose nodes are all in order, for the paths of the visits under way. -/
inductive Grown : List Path → Tree → Prop where
  | mk {u : List Path} {n : Node} {bs : List (Move × Tree)} (sound : Sound u.length (node n bs))
      (branch : ∀ i m below, bs[i]? = some (m, below) → Grown (under i u) below) :
      Grown u (node n bs)

/-! ## New branches -/

theorem length_priors (policy : List Single) (moves : List Move) :
    (priors policy moves).length = moves.length := by
  unfold priors
  simp only
  split <;> simp

/-- An expanded node gets a branch for each legal move. -/
theorem freshBranches_moves (policy : List Single) (position : Position) :
    ((freshBranches policy position).map (·.1)).Perm position.legalMoves := by
  have hmoves : ∀ (moves : List Move) (weights : List Single), weights.length = moves.length →
      (List.zipWith (fun m prior => (m, node (.unvisited prior) [])) moves weights).map (·.1) =
        moves := by
    intro moves weights hlen
    rw [List.map_zipWith]
    apply List.ext_getElem (by simp [hlen])
    intro i hi hi'
    simp
  unfold freshBranches
  simp only
  rw [List.map_reverse, hmoves _ _ (length_priors _ _)]
  exact List.reverse_perm _

theorem eq_of_mem_freshBranches {policy : List Single} {position : Position} {m : Move}
    {below : Tree} (h : (m, below) ∈ freshBranches policy position) :
    ∃ prior, below = node (.unvisited prior) [] := by
  unfold freshBranches at h
  simp only [List.mem_reverse] at h
  obtain ⟨i, hi, heq⟩ := List.getElem_of_mem h
  rw [List.getElem_zipWith] at heq
  cases heq
  exact ⟨_, rfl⟩

/-- A tree whose top is not expanded gets its branches. -/
theorem expand_of_unexpanded (hleaf : t.top.expanded = false) (policy : List Single)
    (position : Position) : expand policy position t =
      node { t.top with expanded := true } (freshBranches policy position) := by
  obtain ⟨n, bs⟩ := t
  exact if_neg fun hexpanded => Bool.false_ne_true (hleaf.symm.trans hexpanded)

theorem top_expand (policy : List Single) (position : Position) (t : Tree) :
    (expand policy position t).top = { t.top with expanded := true } := by
  obtain ⟨n, bs⟩ := t
  rw [expand]
  split
  · rename_i hexpanded
    show n = { n with expanded := true }
    rw [← show n.expanded = true from hexpanded]
  · rfl

/-- Expanding a node changes nothing else of the top. -/
theorem top_modifyAt_expand (policy : List Single) (position : Position) (path : Path) (t : Tree) :
    ∃ expanded, (t.modifyAt (expand policy position) path).top =
      { t.top with expanded := expanded } := by
  cases path with
  | nil => exact ⟨true, top_expand policy position t⟩
  | cons =>
    obtain ⟨n, bs⟩ := t
    exact ⟨n.expanded, rfl⟩

theorem position_modifyAt_expand (policy : List Single) (position : Position) (path : Path)
    (t : Tree) : (t.modifyAt (expand policy position) path).top.position = t.top.position := by
  obtain ⟨expanded, htop⟩ := top_modifyAt_expand policy position path t
  rw [htop]

/-! ## Grown trees -/

namespace Grown

/-- A node without branches that was not expanded is a grown tree. -/
theorem bare (hexpanded : n.expanded = false) (hlosses : n.virtualLosses = u.length) :
    Grown u (Tree.node n []) := by
  refine .mk ⟨hlosses, fun _ => rfl, ?_, ?_⟩ ?_
  · intro hexp
    rw [show n.expanded = true from hexp] at hexpanded
    cases hexpanded
  · intro m below hmem
    cases hmem
  · intro i m below hi
    cases hi

theorem unvisited (prior : Single) : Grown [] (Tree.node (.unvisited prior) []) := bare rfl rfl

theorem root (position : Position) : Grown [] (root position) := bare rfl rfl

theorem sound (h : Grown u t) : t.Sound u.length := by
  cases h with
  | mk sound _ => exact sound

theorem branch {m : Move} {below : Tree} (h : Grown u (node n bs)) (hi : bs[i]? = some (m, below)) :
    Grown (under i u) below := by
  cases h with
  | mk _ branch => exact branch i m below hi

theorem exists_at (h : Grown u t) {path : Path} {s : Tree} (hs : t.at? path = some s) :
    ∃ u', Grown u' s ∧ (u = [] → u' = []) := by
  induction path generalizing u t with
  | nil =>
    cases hs
    exact ⟨u, h, id⟩
  | cons i path ih =>
    obtain ⟨n, bs⟩ := t
    simp only [at?] at hs
    split at hs
    · rename_i m below hi
      obtain ⟨u', hbelow, hrest⟩ := ih (h.branch hi) hs
      refine ⟨u', hbelow, ?_⟩
      rintro rfl
      exact hrest (under_nil i)
    · cases hs

/-- At rest every tree below is in order. -/
theorem at_rest (h : Grown [] t) {path : Path} {s : Tree} (hs : t.at? path = some s) :
    Grown [] s := by
  obtain ⟨u', hbelow, hrest⟩ := h.exists_at hs
  rw [hrest rfl] at hbelow
  exact hbelow

theorem perm (h : Grown u t) (hu : u.Perm u') : Grown u' t := by
  induction h generalizing u' with
  | mk sound _ ih =>
    refine .mk (hu.length_eq ▸ sound) ?_
    intro i m below hi
    exact ih i m below hi (hu.filterMap _)

/-- The branches of a grown tree may be replaced by others with the same moves, if these are grown
and their positions follow. -/
theorem replace {bs' : List (Move × Tree)} (h : Grown u (node n bs))
    (hposition : n'.position = n.position) (hexpanded : n'.expanded = n.expanded)
    (hlosses : n'.virtualLosses = u'.length) (hmoves : (bs'.map (·.1)).Perm (bs.map (·.1)))
    (hbranch : ∀ i m below, bs'[i]? = some (m, below) → Grown (under i u') below ∧
      ∀ next, below.top.position = some next →
        (∃ old, (m, old) ∈ bs ∧ old.top.position = some next) ∨
          ∃ pos, n.position = some pos ∧ pos.play m = .ok next) :
    Grown u' (node n' bs') := by
  have hsound := h.sound
  refine .mk ⟨hlosses, ?_, ?_, ?_⟩ fun i m below hi => (hbranch i m below hi).1
  · intro hexp
    have hnil : bs = [] := hsound.bare (hexpanded ▸ hexp)
    rw [hnil] at hmoves
    exact List.map_eq_nil_iff.mp hmoves.eq_nil
  · intro hexp
    obtain ⟨pos, hpos, hover, hperm⟩ := hsound.full (hexpanded ▸ hexp)
    exact ⟨pos, hposition.trans hpos, hover, hmoves.trans hperm⟩
  · intro m below hmem next hnext
    show ∃ pos, n'.position = some pos ∧ _
    rw [hposition]
    obtain ⟨i, hi⟩ := List.mem_iff_getElem?.mp hmem
    rcases (hbranch i m below hi).2 next hnext with ⟨old, hold, hknown⟩ | hplayed
    · exact hsound.follows m old hold next hknown
    · exact hplayed

/-- One branch of a grown tree may change if it stays grown and its position follows. -/
theorem modify {g : Tree → Tree} (h : Grown u (node n bs)) (hposition : n'.position = n.position)
    (hexpanded : n'.expanded = n.expanded) (hlosses : n'.virtualLosses = u'.length)
    (hothers : ∀ j, j ≠ i → under j u' = under j u)
    (hbranch : ∀ m below, bs[i]? = some (m, below) → Grown (under i u') (g below) ∧
      ∀ next, (g below).top.position = some next → below.top.position = some next ∨
        ∃ pos, n.position = some pos ∧ pos.play m = .ok next) :
    Grown u' (node n' (bs.modify i fun b => (b.1, g b.2))) := by
  refine h.replace hposition hexpanded hlosses ?_ ?_
  · apply List.Perm.of_eq
    apply List.ext_getElem?
    intro j
    rw [List.getElem?_map, List.getElem?_modify, List.getElem?_map]
    cases bs[j]? with
    | none => rfl
    | some b =>
      simp only [Option.map_some]
      split <;> rfl
  · intro j m below hj
    rw [List.getElem?_modify] at hj
    obtain ⟨⟨m', old⟩, hold, heq⟩ := Option.map_eq_some_iff.mp hj
    have hmem : (m', old) ∈ bs := List.mem_of_getElem? hold
    split at heq
    · rename_i hij
      subst hij
      cases heq
      refine ⟨(hbranch m' old hold).1, ?_⟩
      intro next hnext
      rcases (hbranch m' old hold).2 next hnext with hknown | hplayed
      · exact .inl ⟨old, hmem, hknown⟩
      · exact .inr hplayed
    · rename_i hij
      cases heq
      rw [hothers j (Ne.symm hij)]
      exact ⟨h.branch hold, fun next hnext => .inl ⟨below, hmem, hnext⟩⟩

/-- A branch may be replaced by a grown tree of the position that its move leads to. -/
theorem renew {m : Move} {below below' : Tree} {pos next : Position} (h : Grown u (node n bs))
    (hi : bs[i]? = some (m, below)) (hposition : n.position = some pos)
    (hplay : pos.play m = .ok next) (hgrown : Grown (under i u) below')
    (hnext : below'.top.position = some next) :
    Grown u (node n (bs.modify i fun b => (b.1, below'))) := by
  refine h.modify (g := fun _ => below') rfl rfl h.sound.losses (fun _ _ => rfl) ?_
  intro m' old hold
  rw [hi] at hold
  cases hold
  refine ⟨hgrown, ?_⟩
  intro known hknown
  rw [hnext] at hknown
  cases hknown
  exact .inr ⟨pos, hposition, hplay⟩

/-- Along a path, changes of nodes keep a tree grown if they keep what is known of the nodes, and
change the virtual losses as the path joins or leaves the visits under way. -/
theorem along (f : Node → Node) (before after : Nat)
    (hposition : ∀ n, (f n).position = n.position) (hexpanded : ∀ n, (f n).expanded = n.expanded)
    (hlosses : ∀ n k, n.virtualLosses = before + k → (f n).virtualLosses = after + k)
    {path : Path} (h : Grown (List.replicate before path ++ u) t) :
    Grown (List.replicate after path ++ u) (t.along f path) := by
  have hlen : ∀ k : Nat, (List.replicate k path ++ u).length = k + u.length := by simp
  induction path generalizing u t with
  | nil =>
    obtain ⟨n, bs⟩ := t
    refine h.replace (hposition n) (hexpanded n) ?_ (.refl _) ?_
    · rw [hlen]
      exact hlosses n _ (hlen before ▸ h.sound.losses)
    · intro i m below hi
      have hbelow := h.branch hi
      rw [under_replicate_nil] at hbelow ⊢
      exact ⟨hbelow, fun next hnext => .inl ⟨below, List.mem_of_getElem? hi, hnext⟩⟩
  | cons i path ih =>
    obtain ⟨n, bs⟩ := t
    have hunder : ∀ k, under i (List.replicate k (i :: path) ++ u) =
        List.replicate k path ++ under i u := fun k => under_replicate_self k
    show Grown _ (node (f n) (bs.modify i fun b => (b.1, Tree.along f path b.2)))
    refine h.modify (hposition n) (hexpanded n) ?_ ?_ ?_
    · rw [hlen]
      exact hlosses n _ (hlen before ▸ h.sound.losses)
    · intro j hj
      rw [under_replicate_of_ne hj.symm, under_replicate_of_ne hj.symm]
    · intro m below hi
      have hbelow := h.branch hi
      rw [hunder] at hbelow ⊢
      refine ⟨ih hbelow (by simp), ?_⟩
      intro next hnext
      rw [top_along, hposition] at hnext
      exact .inl hnext

theorem visit (h : Grown u t) (outcome : Single) (path : Path) :
    Grown u (t.along (.visit outcome) path) :=
  along (.visit outcome) 0 0 (fun _ => rfl) (fun _ => rfl) (fun _ _ h => h) h

theorem reprior (h : Grown u t) (prior : Node → Single) (path : Path) :
    Grown u (t.along (fun n => { n with prior := prior n }) path) :=
  along (fun n => { n with prior := prior n }) 0 0 (fun _ => rfl) (fun _ => rfl)
    (fun _ _ h => h) h

theorem addLoss (h : Grown u t) (path : Path) : Grown (path :: u) (t.along .addLoss path) := by
  refine along .addLoss 0 1 (fun _ => rfl) (fun _ => rfl) ?_ h
  intro n k hn
  show n.virtualLosses + 1 = 1 + k
  omega

theorem takeLoss {path : Path} (h : Grown (path :: u) t) : Grown u (t.along .takeLoss path) := by
  refine along .takeLoss 1 0 (fun _ => rfl) (fun _ => rfl) ?_ h
  intro n k hn
  show n.virtualLosses - 1 = 0 + k
  omega

/-- A node may learn its position if it has none, or this one. -/
theorem know {position : Position} (h : Grown u t)
    (hknown : ∀ known, t.top.position = some known → known = position) :
    Grown u (t.know position) := by
  obtain ⟨n, bs⟩ := t
  have hsound := h.sound
  cases hn : n.position with
  | some known =>
    have hsame : { n with position := some position } = n := by
      rw [← hknown known hn, ← hn]
    rw [Tree.know, hsame]
    exact h
  | none =>
    -- The position of an expanded node is known, so this one has no branches yet.
    have hexp : n.expanded = false := by
      by_contra hexp
      obtain ⟨pos, hpos, -⟩ := hsound.full ((Bool.not_eq_false _).mp hexp)
      rw [show (Tree.node n bs).top.position = none from hn] at hpos
      cases hpos
    have hbare : bs = [] := hsound.bare hexp
    subst hbare
    exact bare hexp hsound.losses

/-- A leaf whose position is not over may be expanded, if no visit is under way below it. -/
theorem expandAt {policy : List Single} {position : Position} {path : Path} {s : Tree}
    (h : Grown u t) (hs : t.at? path = some s) (hposition : s.top.position = some position)
    (hexpanded : s.top.expanded = false) (hover : position.isOver = false)
    (hvalid : ∀ q ∈ u, ∃ s, t.at? q = some s) :
    Grown u (t.modifyAt (expand policy position) path) := by
  induction path generalizing u t with
  | nil =>
    cases hs
    obtain ⟨n, bs⟩ := s
    have hexp : n.expanded = false := hexpanded
    have hbare : bs = [] := h.sound.bare hexp
    subst hbare
    show Grown u (expand policy position (Tree.node n []))
    rw [expand_of_unexpanded hexpanded]
    refine .mk ⟨h.sound.losses, nofun, ?_, ?_⟩ ?_
    · intro _
      exact ⟨position, hposition, hover, freshBranches_moves policy position⟩
    · intro m below hmem next hnext
      obtain ⟨prior, rfl⟩ := eq_of_mem_freshBranches hmem
      cases hnext
    · intro i m below hi
      obtain ⟨prior, rfl⟩ := eq_of_mem_freshBranches (List.mem_of_getElem? hi)
      -- No visit goes through a new branch: all of them are to nodes that were there before.
      have hunder : under i u = [] := by
        rw [List.eq_nil_iff_forall_not_mem]
        intro q hq
        obtain ⟨s, hs⟩ := hvalid _ (mem_under.mp hq)
        cases hs
      rw [hunder]
      exact unvisited prior
  | cons i path ih =>
    obtain ⟨n, bs⟩ := t
    show Grown u (Tree.node n (bs.modify i fun b =>
      (b.1, Tree.modifyAt (expand policy position) path b.2)))
    refine h.modify rfl rfl h.sound.losses (fun _ _ => rfl) ?_
    intro m below hi
    constructor
    · refine ih (h.branch hi) ?_ ?_
      · simpa [at?, hi] using hs
      · intro q hq
        simpa [at?, hi] using hvalid _ (mem_under.mp hq)
    · intro next hnext
      rw [position_modifyAt_expand] at hnext
      exact .inl hnext

end Grown

/-! ## New priors and a new order -/

theorem mapPriors_nil (f : Single → Single → Single) (bs : List (Move × Tree)) :
    mapPriors f bs [] = bs := by
  unfold mapPriors
  split
  · contradiction
  · rfl

/-- The node at the top of a branch gets a new prior if there is a number for it. -/
theorem getElem?_mapPriors (f : Single → Single → Single) (bs : List (Move × Tree))
    (xs : List Single) (i : Nat) : (mapPriors f bs xs)[i]? = bs[i]?.map fun b =>
      (b.1, b.2.along (fun n => { n with prior := xs[i]?.elim n.prior (f n.prior) }) []) := by
  induction bs generalizing xs i with
  | nil => simp [mapPriors]
  | cons b bs ih =>
    obtain ⟨m, n, cs⟩ := b
    cases xs with
    | nil =>
      rw [mapPriors_nil]
      cases ((m, node n cs) :: bs)[i]? with
      | none => rfl
      | some b =>
        obtain ⟨m', n', cs'⟩ := b
        rfl
    | cons x xs =>
      cases i with
      | zero => rfl
      | succ i => exact ih xs i

/-- New priors change the nodes at the top of some branches, and nothing else. -/
theorem exists_getElem?_mapPriors (f : Single → Single → Single) (bs : List (Move × Tree))
    (xs : List Single) (i : Nat) : ∃ prior : Node → Single, (mapPriors f bs xs)[i]? =
      bs[i]?.map fun b => (b.1, b.2.along (fun n => { n with prior := prior n }) []) :=
  ⟨_, getElem?_mapPriors f bs xs i⟩

theorem moves_mapPriors (f : Single → Single → Single) (bs : List (Move × Tree))
    (xs : List Single) : (mapPriors f bs xs).map (·.1) = bs.map (·.1) := by
  apply List.ext_getElem?
  intro i
  obtain ⟨prior, hi⟩ := exists_getElem?_mapPriors f bs xs i
  rw [List.getElem?_map, List.getElem?_map, hi, Option.map_map]
  rfl

theorem Grown.mapPriors (h : Grown u (node n bs)) (f : Single → Single → Single)
    (xs : List Single) : Grown u (node n (mapPriors f bs xs)) := by
  refine h.replace rfl rfl h.sound.losses (.of_eq (moves_mapPriors f bs xs)) ?_
  intro i m below hi
  obtain ⟨prior, hprior⟩ := exists_getElem?_mapPriors f bs xs i
  rw [hprior] at hi
  obtain ⟨⟨m', old⟩, hold, heq⟩ := Option.map_eq_some_iff.mp hi
  cases heq
  constructor
  · exact (h.branch hold).reprior prior []
  · intro next hnext
    rw [top_along] at hnext
    exact .inl ⟨old, List.mem_of_getElem? hold, hnext⟩

/-- At rest a tree stays grown if the branches of every node are reversed. -/
theorem Grown.reverse (h : Grown u t) (hu : u = []) : Grown [] t.reverse := by
  induction h with
  | @mk u n bs sound branch ih =>
    subst hu
    refine (Grown.mk sound branch).replace rfl rfl sound.losses ?_ ?_
    · rw [List.map_reverse, reverseAll_eq_map, List.map_map]
      exact List.reverse_perm _
    · intro i m below hi
      have hmem := List.mem_reverse.mp (List.mem_of_getElem? hi)
      rw [reverseAll_eq_map] at hmem
      obtain ⟨⟨m', old⟩, hold, heq⟩ := List.mem_map.mp hmem
      cases heq
      obtain ⟨j, hj⟩ := List.mem_iff_getElem?.mp hold
      refine ⟨ih j m' old hj rfl, ?_⟩
      intro next hnext
      rw [top_reverse] at hnext
      exact .inl ⟨old, hold, hnext⟩

end Tree

end Goban
