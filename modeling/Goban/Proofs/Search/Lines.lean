import Goban.Proofs.Search.Leaves

/-!
# Lines of moves in a search tree

The moves on the way to a node tell it from all others of its tree (`Tree.Grown.eq_of_moves_eq`) and
lead to its position (`Tree.Grown.playAll_moves`). What was explored, the nodes that were expanded,
can be said by their moves alone (`Tree.Explored`); said so it outlasts all that happens to a tree:
the changes of a search, a new order of its branches, and the cut to the tree below a branch
(`Tree.Explored.branch`). The leaves that wait for a model are different nodes, and were not
explored (`Tree.Gathered.nodup_moves`, `Tree.Gathered.not_explored`).
-/

namespace Goban

namespace Tree

variable {u : List Path} {n : Node} {bs : List (Move × Tree)} {t t' s : Tree} {path : Path}
  {m : Move} {line : List Move} {leaf : Leaf} {leaves : List Leaf}

/-- The moves lead to a node that was expanded. -/
def Explored (line : List Move) (t : Tree) : Prop := ∃ path, t.IsExpanded path ∧ t.moves path = line

/-- No two branches have the same move. -/
theorem Sound.nodup {losses : Nat} (h : Sound losses t) : (t.branches.map (·.1)).Nodup := by
  cases hexpanded : t.top.expanded with
  | true =>
    obtain ⟨pos, -, -, hmoves⟩ := h.full hexpanded
    refine hmoves.nodup_iff.mpr ((List.pairwise_map.mp pos.legalMoves_sorted).imp ?_)
    rintro m m' hlt rfl
    exact Nat.lt_irrefl _ hlt
  | false =>
    rw [h.bare hexpanded]
    exact List.nodup_nil

theorem Sound.eq_of_move {losses i j : Nat} {below below' : Tree} (h : Sound losses (node n bs))
    (hi : bs[i]? = some (m, below)) (hj : bs[j]? = some (m, below')) : i = j ∧ below = below' := by
  have hmove : ∀ {k : Nat} {below : Tree}, bs[k]? = some (m, below) →
      (bs.map (·.1))[k]? = some m := by
    intro k below hk
    rw [List.getElem?_map, hk]
    rfl
  have hlt : i < (bs.map (·.1)).length := (List.getElem?_eq_some_iff.mp (hmove hi)).1
  obtain rfl : i = j := (List.getElem?_inj hlt h.nodup).mp ((hmove hi).trans (hmove hj).symm)
  rw [hi] at hj
  cases hj
  exact ⟨rfl, rfl⟩

/-! ## Grown trees -/

/-- Two nodes with the same moves to them are one. -/
theorem Grown.eq_of_moves_eq {path' : Path} {s' : Tree} (h : Grown u t) (hs : t.at? path = some s)
    (hs' : t.at? path' = some s') (hmoves : t.moves path = t.moves path') : path = path' := by
  induction path generalizing u t path' with
  | nil =>
    cases path' with
    | nil => rfl
    | cons j path' =>
      obtain ⟨n, bs⟩ := t
      obtain ⟨m, below, hj, -⟩ := at?_cons_eq_some.mp hs'
      rw [moves_cons hj] at hmoves
      cases hmoves
  | cons i path ih =>
    obtain ⟨n, bs⟩ := t
    obtain ⟨m, below, hi, hbelow⟩ := at?_cons_eq_some.mp hs
    rw [moves_cons hi] at hmoves
    cases path' with
    | nil => cases hmoves
    | cons j path' =>
      obtain ⟨m', below', hj, hbelow'⟩ := at?_cons_eq_some.mp hs'
      rw [moves_cons hj, List.cons.injEq] at hmoves
      obtain ⟨rfl, hrest⟩ := hmoves
      obtain ⟨rfl, rfl⟩ := h.sound.eq_of_move hi hj
      rw [ih (h.branch hi) hbelow hbelow' hrest]

/-- The moves to a node lead to its position. -/
theorem Grown.playAll_moves {root position : Position} (h : Grown u t)
    (htop : t.top.position = some root) (hs : t.at? path = some s)
    (hposition : s.top.position = some position) : root.playAll (t.moves path) = .ok position := by
  induction path generalizing u t root with
  | nil =>
    cases hs
    rw [hposition] at htop
    cases htop
    rfl
  | cons i path ih =>
    obtain ⟨n, bs⟩ := t
    obtain ⟨m, below, hi, hbelow⟩ := at?_cons_eq_some.mp hs
    obtain ⟨pos, next, hpos, hplay, hfollows⟩ := h.sound.exists_play (List.mem_of_getElem? hi)
    obtain rfl : root = pos := Option.some.inj (htop.symm.trans hpos)
    have hbranch := h.branch hi
    have hnext : below.top.position = some next := by
      cases path with
      | nil =>
        cases hbelow
        rw [hposition, hfollows position hposition]
      | cons j path =>
        -- There is a branch below, so the position is known.
        obtain ⟨n', cs⟩ := below
        obtain ⟨m', below', hj, -⟩ := at?_cons_eq_some.mp hbelow
        obtain ⟨known, -, hknown, -⟩ := hbranch.sound.exists_play (List.mem_of_getElem? hj)
        rw [hknown, hfollows known hknown]
    rw [moves_cons hi, Position.playAll_cons, hplay]
    exact ih hbranch hnext hbelow

/-! ## What was explored -/

namespace Explored

theorem of_keeps (h : t.Explored line) (hkeeps : t.Keeps t') : t'.Explored line := by
  obtain ⟨path, hpath, rfl⟩ := h
  obtain ⟨s, hs, -⟩ := id hpath
  exact ⟨path, hkeeps.isExpanded hpath, hkeeps.moves_eq hs⟩

/-- The order of the branches does not matter. -/
theorem reverse (h : t.Explored line) : t.reverse.Explored line := by
  obtain ⟨path, ⟨s, hs, hexpanded⟩, rfl⟩ := h
  induction path generalizing t with
  | nil =>
    cases hs
    refine ⟨[], isExpanded_nil.mpr ?_, rfl⟩
    rw [top_reverse]
    exact hexpanded
  | cons i path ih =>
    obtain ⟨n, bs⟩ := t
    obtain ⟨m, below, hi, hbelow⟩ := at?_cons_eq_some.mp hs
    obtain ⟨path', ⟨s', hs', hexpanded'⟩, hmoves⟩ := ih hbelow
    have hmem : (m, below.reverse) ∈ (reverseAll bs).reverse := by
      rw [List.mem_reverse, reverseAll_eq_map]
      exact List.mem_map.mpr ⟨(m, below), List.mem_of_getElem? hi, rfl⟩
    obtain ⟨j, hj⟩ := List.mem_iff_getElem?.mp hmem
    refine ⟨j :: path', ⟨s', at?_cons_eq_some.mpr ⟨m, _, hj, hs'⟩, hexpanded'⟩, ?_⟩
    rw [moves_cons hi, ← hmoves]
    exact moves_cons hj path'

/-- What was explored after a move lies below its branch. -/
theorem branch (h : t.Explored (m :: line)) (hgrown : Grown u t) :
    (∃ below, (m, below) ∈ t.branches) ∧
      ∀ below, (m, below) ∈ t.branches → below.Explored line := by
  obtain ⟨path, ⟨s, hs, hexpanded⟩, hmoves⟩ := h
  obtain ⟨n, bs⟩ := t
  cases path with
  | nil => cases hmoves
  | cons i path =>
    obtain ⟨m', found, hi, hfound⟩ := at?_cons_eq_some.mp hs
    rw [moves_cons hi, List.cons.injEq] at hmoves
    obtain ⟨rfl, rfl⟩ := hmoves
    refine ⟨⟨found, List.mem_of_getElem? hi⟩, ?_⟩
    intro below hbelow
    obtain ⟨j, hj⟩ := List.mem_iff_getElem?.mp hbelow
    obtain ⟨rfl, rfl⟩ := hgrown.sound.eq_of_move hi hj
    exact ⟨path, ⟨s, hfound, hexpanded⟩, rfl⟩

end Explored

/-! ## Leaves that wait -/

namespace Gathered

/-- The moves to leaves that wait are different. -/
theorem nodup_moves (h : t.Gathered leaves) (line : List Move) :
    (leaves.map fun leaf => line ++ t.moves leaf.path).Nodup := by
  have hpaths := List.pairwise_map.mp h.apart
  refine List.pairwise_map.mpr (hpaths.imp_of_mem ?_)
  intro leaf leaf' hleaf hleaf' hne hmoves
  obtain ⟨-, s, hs, -⟩ := h.waits leaf hleaf
  obtain ⟨-, s', hs', -⟩ := h.waits leaf' hleaf'
  exact hne (h.grown.eq_of_moves_eq hs hs' (List.append_cancel_left hmoves))

/-- A leaf that waits was not explored. -/
theorem not_explored (h : t.Gathered leaves) (hleaf : leaf ∈ leaves) :
    ¬ t.Explored (t.moves leaf.path) := by
  rintro ⟨path, ⟨s, hs, hexpanded⟩, hmoves⟩
  obtain ⟨-, s', hs', -, hleaf'⟩ := h.waits leaf hleaf
  obtain rfl := h.grown.eq_of_moves_eq hs hs' hmoves
  rw [hs] at hs'
  cases hs'
  rw [hexpanded] at hleaf'
  cases hleaf'

/-- No leaf waits below a finished position. -/
theorem eq_nil_of_over {root : Position} (h : t.Gathered leaves)
    (hroot : t.top.position = some root) (hover : root.isOver = true) : leaves = [] := by
  rw [List.eq_nil_iff_forall_not_mem]
  intro leaf hleaf
  obtain ⟨hgoes, s, hs, hposition, -⟩ := h.waits leaf hleaf
  have hlines := h.grown.playAll_moves hroot hs hposition
  cases hmoves : t.moves leaf.path with
  | nil =>
    rw [hmoves] at hlines
    cases hlines
    rw [hover] at hgoes
    cases hgoes
  | cons m rest =>
    rw [hmoves, Position.playAll_cons] at hlines
    cases hplay : root.play m with
    | error refusal =>
      rw [hplay] at hlines
      cases hlines
    | ok next =>
      rw [Position.isOver_of_play hplay] at hover
      cases hover

end Gathered

end Tree

end Goban
