import Goban.Proofs.Search.Lines
import Goban.Proofs.Search.Steady

/-!
# The tree after a move

The tree below the branch of a move becomes the tree of the player as a mirror image: the branches of
every node stand in the opposite order, so each node is found at the mirrored path
(`Tree.at?_reverse_mirror`), and each path of the new tree is that of one node
(`Tree.existsUnique_mirror`). Of the nodes nothing changes but the position of the new root, which is
known now, and the priors below it, if noise is mixed into them (`Player.advance_transplants`).
-/

namespace Goban

namespace Tree

variable {n n' : Node} {bs : List (Move × Tree)} {t s s' below : Tree} {i : Nat} {m : Move}
  {path path' : Path}

/-! ## Mirror images -/

/-- The path of a node when the branches of every node stand in the opposite order. -/
def mirror : Path → Tree → Path
  | [], _ => []
  | i :: path, node _ bs =>
    match bs[i]? with
    | some (_, t) => (bs.length - 1 - i) :: mirror path t
    | none => i :: path

theorem mirror_cons (hi : bs[i]? = some (m, below)) (path : Path) :
    (node n bs).mirror (i :: path) = (bs.length - 1 - i) :: below.mirror path := by
  rw [mirror, hi]

theorem length_reverseAll (bs : List (Move × Tree)) : (reverseAll bs).length = bs.length := by
  rw [reverseAll_eq_map, List.length_map]

theorem branches_reverse (t : Tree) : t.reverse.branches = (reverseAll t.branches).reverse := by
  obtain ⟨n, bs⟩ := t
  rfl

theorem getElem?_reverse_reverseAll (hlt : i < bs.length) :
    (reverseAll bs).reverse[bs.length - 1 - i]? = bs[i]?.map fun b => (b.1, b.2.reverse) := by
  rw [List.getElem?_reverse (by rw [length_reverseAll]; omega), length_reverseAll,
    reverseAll_eq_map, List.getElem?_map]
  congr 2
  omega

/-- A node stands at the mirrored path, by the same moves. -/
theorem at?_reverse_mirror (hs : t.at? path = some s) :
    t.reverse.at? (t.mirror path) = some s.reverse ∧
      t.reverse.moves (t.mirror path) = t.moves path := by
  induction path generalizing t with
  | nil =>
    cases hs
    exact ⟨rfl, rfl⟩
  | cons i path ih =>
    obtain ⟨n, bs⟩ := t
    obtain ⟨m, below, hi, hbelow⟩ := at?_cons_eq_some.mp hs
    obtain ⟨hat, hmoves⟩ := ih hbelow
    have hmirror : (reverseAll bs).reverse[bs.length - 1 - i]? = some (m, below.reverse) := by
      obtain ⟨hlt, -⟩ := List.getElem?_eq_some_iff.mp hi
      rw [getElem?_reverse_reverseAll hlt, hi]
      rfl
    rw [mirror_cons hi, moves_cons hi, ← hmoves]
    exact ⟨at?_cons_eq_some.mpr ⟨m, below.reverse, hmirror, hat⟩, moves_cons hmirror _⟩

theorem mirror_inj (hs : t.at? path = some s) (hs' : t.at? path' = some s')
    (h : t.mirror path = t.mirror path') : path = path' := by
  induction path generalizing t path' with
  | nil =>
    cases path' with
    | nil => rfl
    | cons j path' =>
      obtain ⟨n, bs⟩ := t
      obtain ⟨m, below, hj, -⟩ := at?_cons_eq_some.mp hs'
      rw [mirror_cons hj] at h
      cases h
  | cons i path ih =>
    obtain ⟨n, bs⟩ := t
    obtain ⟨m, below, hi, hbelow⟩ := at?_cons_eq_some.mp hs
    rw [mirror_cons hi] at h
    cases path' with
    | nil => cases h
    | cons j path' =>
      obtain ⟨m', below', hj, hbelow'⟩ := at?_cons_eq_some.mp hs'
      rw [mirror_cons hj, List.cons.injEq] at h
      obtain ⟨hilt, -⟩ := List.getElem?_eq_some_iff.mp hi
      obtain ⟨hjlt, -⟩ := List.getElem?_eq_some_iff.mp hj
      obtain rfl : i = j := by omega
      rw [hi] at hj
      cases hj
      rw [ih hbelow hbelow' h.2]

/-- Each path of a mirror image is that of one node. -/
theorem existsUnique_mirror (hs : t.reverse.at? path' = some s') :
    ∃! path, (∃ s, t.at? path = some s) ∧ t.mirror path = path' := by
  have hexists : ∃ path s, t.at? path = some s ∧ t.mirror path = path' := by
    induction path' generalizing t with
    | nil => exact ⟨[], t, rfl, rfl⟩
    | cons j path' ih =>
      obtain ⟨n, bs⟩ := t
      obtain ⟨m, below', hj, hbelow'⟩ := at?_cons_eq_some.mp hs
      obtain ⟨hlt, -⟩ := List.getElem?_eq_some_iff.mp hj
      rw [List.length_reverse, length_reverseAll] at hlt
      have hplace : bs.length - 1 - (bs.length - 1 - j) = j := by omega
      have hmirror := getElem?_reverse_reverseAll (show bs.length - 1 - j < bs.length by omega)
      rw [hplace, hj] at hmirror
      obtain ⟨⟨move, below⟩, hi, heq⟩ := Option.map_eq_some_iff.mp hmirror.symm
      cases heq
      obtain ⟨path, s, hfound, rfl⟩ := ih hbelow'
      refine ⟨(bs.length - 1 - j) :: path, s, at?_cons_eq_some.mpr ⟨_, below, hi, hfound⟩, ?_⟩
      rw [mirror_cons hi, hplace]
  obtain ⟨path, s, hs, hmirror⟩ := hexists
  refine ⟨path, ⟨⟨s, hs⟩, hmirror⟩, ?_⟩
  rintro other ⟨⟨s', hs'⟩, hother⟩
  exact mirror_inj hs' hs (hother.trans hmirror.symm)

/-! ## New priors below the top -/

theorem length_mapPriors (f : Single → Single → Single) (bs : List (Move × Tree))
    (xs : List Single) : (mapPriors f bs xs).length = bs.length := by
  have hmoves := congrArg List.length (moves_mapPriors f bs xs)
  rwa [List.length_map, List.length_map] at hmoves

theorem at?_along_nil (f : Node → Node) (t : Tree) (i : Nat) (path : Path) :
    (t.along f []).at? (i :: path) = t.at? (i :: path) := by
  obtain ⟨n, bs⟩ := t
  rfl

theorem moves_along_nil (f : Node → Node) (t : Tree) (path : Path) :
    (t.along f []).moves path = t.moves path := by
  obtain ⟨n, bs⟩ := t
  cases path <;> rfl

/-- What becomes of the node at a path under another top and with new priors below it. -/
def reprior (n' : Node) (f : Single → Single → Single) (xs : List Single) : Path → Node → Node
  | [], _ => n'
  | [i], n => { n with prior := xs[i]?.elim n.prior (f n.prior) }
  | _, n => n

/-- Under another top and with new priors below it, all nodes stand where they were. -/
theorem at?_mapPriors (n' : Node) (f : Single → Single → Single) (xs : List Single)
    (hs : (node n bs).at? path = some s) : ∃ s', (node n' (mapPriors f bs xs)).at? path = some s' ∧
      (node n' (mapPriors f bs xs)).moves path = (node n bs).moves path ∧
      s'.branches.length = s.branches.length ∧ s'.top = reprior n' f xs path s.top := by
  cases path with
  | nil =>
    cases hs
    exact ⟨_, rfl, rfl, length_mapPriors f bs xs, rfl⟩
  | cons i path =>
    obtain ⟨m, below, hi, hbelow⟩ := at?_cons_eq_some.mp hs
    have hnew := getElem?_mapPriors f bs xs i
    rw [hi, Option.map_some] at hnew
    rw [moves_cons hi, moves_cons hnew, moves_along_nil]
    cases path with
    | nil =>
      cases hbelow
      refine ⟨_, at?_cons_eq_some.mpr ⟨m, _, hnew, rfl⟩, rfl, ?_, top_along _ _ _⟩
      obtain ⟨n, bs⟩ := s
      rfl
    | cons j path =>
      refine ⟨s, at?_cons_eq_some.mpr ⟨m, _, hnew, ?_⟩, rfl, rfl, rfl⟩
      rw [at?_along_nil]
      exact hbelow

theorem at?_of_mapPriors {f : Single → Single → Single} {xs : List Single}
    (hs : (node n' (mapPriors f bs xs)).at? path = some s') :
    ∃ s, (node n bs).at? path = some s := by
  cases path with
  | nil => exact ⟨_, rfl⟩
  | cons i path =>
    obtain ⟨m, below', hi, hbelow'⟩ := at?_cons_eq_some.mp hs
    rw [getElem?_mapPriors] at hi
    obtain ⟨⟨move, below⟩, hold, heq⟩ := Option.map_eq_some_iff.mp hi
    cases heq
    cases path with
    | nil => exact ⟨below, at?_cons_eq_some.mpr ⟨move, below, hold, rfl⟩⟩
    | cons j path =>
      rw [at?_along_nil] at hbelow'
      exact ⟨s', at?_cons_eq_some.mpr ⟨move, below, hold, hbelow'⟩⟩

end Tree

namespace Player

variable {p q : Player} {m : Move} {below : Tree} {position : Position}

/-! ## Noise -/

/-- The shares of noise for the branches of a tree that becomes the tree of the player, and the state
of their source afterwards. There are none if the top was not expanded. -/
def drawn (p : Player) (below : Tree) : List Single × UInt64 :=
  if below.top.expanded && wantsNoise p.options below.branches.length then
    p.noise p.options.noiseAlpha below.branches.length p.noiseState
  else ([], p.noiseState)

/-- A prior with its share of noise. -/
def mixed (p : Player) (prior share : Single) : Single :=
  (.one - p.options.noiseShare) * prior + p.options.noiseShare * share

theorem descend_eq_drawn (p : Player) (below : Tree) (position : Position) :
    p.descend below position = { p with
      tree := .node { below.top with position := some position }
        (Tree.mapPriors p.mixed (Tree.reverseAll below.branches).reverse (p.drawn below).1)
      noiseState := (p.drawn below).2 } := by
  obtain ⟨n, bs⟩ := below
  rw [descend_eq]
  unfold drawn
  cases hexpanded : (Tree.node n bs).top.expanded with
  | false =>
    simp only [Bool.false_and, if_neg Bool.false_ne_true, Tree.mapPriors_nil]
    rfl
  | true =>
    have hlength : (Tree.reverseAll bs).reverse.length = bs.length := by
      rw [List.length_reverse, Tree.length_reverseAll]
    simp only [if_pos, Bool.true_and]
    unfold mixNoise
    simp only [Tree.know, Tree.reverse, hlength, Tree.branches]
    by_cases hwants : wantsNoise p.options bs.length = true
    · simp only [hwants, if_true]
      rfl
    · simp only [hwants, Bool.false_eq_true, if_false, Tree.mapPriors_nil]
      rfl

/-! ## The whole move -/

/-- A node as it stands in the new tree. -/
def carry (p : Player) (below : Tree) (position : Position) : Path → Node → Node
  | [], n => { n with position := some position }
  | [i], n =>
    { n with prior :=
        (p.drawn below).1[below.branches.length - 1 - i]?.elim n.prior (p.mixed n.prior) }
  | _, n => n

/-- What the new priors do to a node at its mirrored path. -/
theorem reprior_mirror {path : Path} {s : Tree} (p : Player) (position : Position)
    (hs : below.at? path = some s) :
    Tree.reprior { below.top with position := some position } p.mixed (p.drawn below).1
      (below.mirror path) s.top = p.carry below position path s.top := by
  obtain ⟨n, bs⟩ := below
  match path with
  | [] =>
    cases hs
    rfl
  | [i] =>
    obtain ⟨m, found, hi, -⟩ := Tree.at?_cons_eq_some.mp hs
    rw [Tree.mirror_cons hi]
    rfl
  | i :: j :: path =>
    obtain ⟨m, found, hi, hfound⟩ := Tree.at?_cons_eq_some.mp hs
    obtain ⟨n', bs'⟩ := found
    obtain ⟨m', found', hj, -⟩ := Tree.at?_cons_eq_some.mp hfound
    rw [Tree.mirror_cons hi, Tree.mirror_cons hj]
    rfl

/-- The new tree is a mirror image of the tree below a branch, copied node by node. -/
structure Transplants (p : Player) (below : Tree) (position : Position) (q : Player) : Prop where
  /-- A copy has one node for each node below the branch, and one branch to each but the first. -/
  copied : (Graph.ofTree (below.know position)).size = below.size ∧
    (Graph.ofTree (below.know position)).ends.Perm (List.range' 1 (below.size - 1))
  /-- Each node stands at the mirrored path, by the same moves and with as many branches. -/
  carried : ∀ path s, below.at? path = some s → ∃ s', q.tree.at? (below.mirror path) = some s' ∧
    q.tree.moves (below.mirror path) = below.moves path ∧
    s'.branches.length = s.branches.length ∧ s'.top = p.carry below position path s.top
  /-- Nothing else is kept. -/
  only : ∀ path' s', q.tree.at? path' = some s' →
    ∃! path, (∃ s, below.at? path = some s) ∧ below.mirror path = path'
  rest : q = { p with tree := q.tree, noiseState := (p.drawn below).2 }

theorem transplants_descend (p : Player) (below : Tree) (position : Position) :
    p.Transplants below position (p.descend below position) := by
  have hsize : (below.know position).size = below.size := by
    rw [Tree.size_eq, Tree.size_eq, Tree.branches_know]
  have hdescend := descend_eq_drawn p below position
  have hmirror : below.reverse = .node below.top (Tree.reverseAll below.branches).reverse := by
    obtain ⟨n, bs⟩ := below
    rfl
  constructor
  · rw [Graph.size_ofTree, hsize, ← hsize]
    exact ⟨rfl, Graph.ends_ofTree _⟩
  · intro path s hs
    obtain ⟨hat, hmoves⟩ := Tree.at?_reverse_mirror hs
    rw [hmirror] at hat hmoves
    obtain ⟨s', hs', hmoves', hlength, htop⟩ := Tree.at?_mapPriors
      { below.top with position := some position } p.mixed (p.drawn below).1 hat
    rw [hdescend]
    refine ⟨s', hs', hmoves'.trans hmoves, ?_, ?_⟩
    · rw [hlength, Tree.branches_reverse, List.length_reverse, Tree.length_reverseAll]
    · rw [htop, Tree.top_reverse, reprior_mirror p position hs]
  · intro path' s' hs'
    rw [hdescend] at hs'
    obtain ⟨s, hs⟩ := Tree.at?_of_mapPriors hs'
    rw [← hmirror] at hs
    exact Tree.existsUnique_mirror hs
  · rw [hdescend]

/-- The move of a branch leads to this branch. -/
theorem find?_eq_of_mem {u : List Path} (h : Tree.Grown u p.tree)
    (hbranch : (m, below) ∈ p.tree.branches) :
    p.tree.branches.find? (·.1 == m) = some (m, below) := by
  cases hfind : p.tree.branches.find? (·.1 == m) with
  | none => exact absurd (List.find?_eq_none.mp hfind _ hbranch) (by simp)
  | some b =>
    obtain ⟨found, below'⟩ := b
    obtain rfl : found = m := by simpa using List.find?_some hfind
    generalize p.tree = t at h hbranch hfind
    obtain ⟨n, bs⟩ := t
    obtain ⟨i, hi⟩ := List.mem_iff_getElem?.mp hbranch
    obtain ⟨j, hj⟩ := List.mem_iff_getElem?.mp (List.mem_of_find?_eq_some hfind)
    rw [(h.sound.eq_of_move hi hj).2]

/-- In every tree of a search, also with visits under way, a move of a branch can be played, and the
tree below the branch becomes the tree of the player. -/
theorem advance_transplants {u : List Path} (h : Tree.Grown u p.tree)
    (hbranch : (m, below) ∈ p.tree.branches) : ∃ root position q, p.position? = some root ∧
      root.play m = .ok position ∧ (∀ known, below.top.position = some known → known = position) ∧
      p.advance m = .ok q ∧ p.Transplants below position q := by
  obtain ⟨root, position, hroot, hplay, hknown⟩ := h.sound.exists_play hbranch
  refine ⟨root, position, p.descend below position, hroot, hplay, hknown, ?_,
    transplants_descend p below position⟩
  exact advance_of_branch (find?_eq_of_mem h hbranch) (positionAfter_eq hroot hplay hknown)

/-- The first move of a new player, after one step of the search. -/
theorem transplants_after_search : ∃ p p' m below position q,
    Player.new "uniform" .usual Noise.dirichlet (.initial GameOptions.usualKomi) = .ok p ∧
      p.search.Gives Evaluation.RightSized p' ∧ (m, below) ∈ p'.tree.branches ∧
      p'.advance m = .ok q ∧ p'.Transplants below position q := by
  obtain ⟨p, hnew⟩ := Player.exists_new "uniform" .usual Noise.dirichlet
    (.initial GameOptions.usualKomi) (by decide)
  have hsearch : p.search.Always Evaluation.RightSized fun p' =>
      p'.Awaits (.initial GameOptions.usualKomi) [] ∧ p'.tree.top.expanded = true :=
    (Awaits.new hnew).search.always fun _ _ hp' => ⟨hp'.1, hp'.2.1 rfl⟩
  obtain ⟨p', hgives⟩ := hsearch.exists_gives Evaluation.exists_rightSized
  obtain ⟨hawaits, hexpanded⟩ := hsearch.of_gives hgives
  have hgrown := hawaits.gathered.grown
  obtain ⟨⟨m, below⟩, hbranch⟩ :=
    List.exists_mem_of_ne_nil _ (hgrown.sound.branches_ne_nil hexpanded)
  obtain ⟨-, position, q, -, -, -, hadvance, htransplants⟩ := advance_transplants hgrown hbranch
  exact ⟨p, p', m, below, position, q, hnew, hgives, hbranch, hadvance, htransplants⟩

end Player

end Goban
