import Goban.Proofs.Search.Accounts
import Goban.Proofs.Search.Favourites

/-!
# The readouts of a suggestion

Each step of a search visits the root, by what it finds finished and by what it sends, once at least
and as often as it selects at most (`Player.visits_search`). So the search ends, in as many steps as
it wants visits (`Player.searchUntil_asks_iff`), and goes beyond them by less than one step. With the
choice of a favourite (`Player.branch_of_favourite?`) this is all that a suggestion does
(`Player.Called.suggests_favourite`).
-/

namespace Goban

@[simp] theorem Node.visits_visit (outcome : Single) (n : Node) :
    (n.visit outcome).visits = n.visits + 1 := rfl

@[simp] theorem Node.visits_addLoss (n : Node) : n.addLoss.visits = n.visits := rfl

@[simp] theorem Node.visits_takeLoss (n : Node) : n.takeLoss.visits = n.visits := rfl

namespace Tree

variable {o : PlayerOptions} {position : Position} {t t' : Tree} {leaf : Leaf}
  {leaves leaves' : List Leaf} {count : Nat}

/-! ## Visits to the top -/

theorem top_select (h : select o position t = .ok (leaf, t')) :
    t'.top = { t.top with position := some position } := by
  obtain ⟨n, bs⟩ := t
  rw [select] at h
  simp only at h
  split at h
  · cases h
    rfl
  · split at h
    · cases h
    · obtain ⟨⟨leaf', bs'⟩, -, h⟩ := bind_eq_ok h
      cases h
      rfl

theorem visits_selectLeaf (h : t.selectLeaf o = .ok (leaf, t')) : t'.top.visits = t.top.visits := by
  unfold selectLeaf at h
  split at h
  · rw [top_select h]
  · cases h

/-- Each selection visits the top or finds a leaf, unless it comes to a leaf that was found. -/
theorem gather_counts (h : gather o count t leaves = .ok (leaves', t')) :
    t.top.visits ≤ t'.top.visits ∧ leaves.length ≤ leaves'.length ∧
      t'.top.visits + leaves'.length ≤ t.top.visits + leaves.length + count ∧
      (0 < count → leaves = [] → t.top.visits < t'.top.visits + leaves'.length) := by
  induction count generalizing t leaves with
  | zero =>
    cases h
    exact ⟨Nat.le_refl _, Nat.le_refl _, Nat.le_refl _,
      fun hcount => absurd hcount (Nat.lt_irrefl 0)⟩
  | succ count ih =>
    rw [gather] at h
    obtain ⟨⟨leaf, t₁⟩, hselect, h⟩ := bind_eq_ok h
    have hsame := visits_selectLeaf hselect
    simp only at h
    split at h
    · obtain ⟨hvisits, hleaves, hmost, -⟩ := ih h
      rw [top_along, Node.visits_visit] at hvisits hmost
      exact ⟨by omega, hleaves, by omega, fun _ _ => by omega⟩
    · split at h
      · rename_i hfound
        cases h
        refine ⟨by omega, Nat.le_refl _, by omega, ?_⟩
        rintro - rfl
        cases hfound
      · obtain ⟨hvisits, hleaves, hmost, -⟩ := ih h
        rw [top_along, Node.visits_addLoss] at hvisits hmost
        rw [List.length_append, List.length_singleton] at hleaves hmost
        exact ⟨by omega, by omega, by omega, fun _ _ => by omega⟩

/-- A top that was not expanded is the only leaf. -/
theorem gather_of_unexpanded_top (hposition : t.top.position = some position)
    (hexpanded : t.top.expanded = false) (hover : position.isOver = false) (hcount : 0 < count) :
    gather o count t [] = .ok ([⟨[], position⟩], t.along .addLoss []) := by
  obtain ⟨count, rfl⟩ := Nat.exists_eq_succ_of_ne_zero (Nat.ne_of_gt hcount)
  rw [gather_of_unexpanded hposition hexpanded hover]
  cases count with
  | zero => rfl
  | succ count =>
    have hagain : (t.along .addLoss []).selectLeaf o = .ok (⟨[], position⟩, t.along .addLoss []) := by
      refine selectLeaf_of_unexpanded ?_ ?_ <;> rw [top_along]
      · exact hposition
      · exact hexpanded
    rw [gather, hagain]
    simp only [bind, Except.bind, hover]
    rfl

theorem visits_absorb {e : Evaluation} (h : absorb leaf e t = .ok t') :
    t'.top.visits = t.top.visits + 1 := by
  unfold absorb at h
  split at h
  · cases h
  · simp only at h
    split at h
    · cases h
    · split at h
      · cases h
      · cases h
        obtain ⟨expanded, htop⟩ := top_modifyAt_expand e.policy leaf.position leaf.path
          (t.along .takeLoss leaf.path)
        rw [top_along, htop, top_along, Node.visits_visit, Node.visits_takeLoss]

end Tree

namespace Player

variable {fits : List Position → List Evaluation → Prop} {start root : Position} {p p' : Player}
  {g : Game} {m : Move} {asked asked₀ : List (List Position)} {target steps : Nat}

/-! ## One step of the search -/

/-- An evaluation is a visit to the root. -/
theorem of_absorb {leaf : Tree.Leaf} {e : Evaluation} (ok : p.absorb leaf e = .ok p') :
    ∃ tree state, p' = { p with tree, noiseState := state } ∧ tree.top.visits = p.visits + 1 := by
  unfold absorb at ok
  obtain ⟨tree, htree, ok⟩ := bind_eq_ok ok
  have hvisits := Tree.visits_absorb htree
  simp only at ok
  split at ok
  · cases ok
    obtain ⟨bs, state, hmixed⟩ := mixNoise_eq { p with tree }
    exact ⟨_, _, hmixed, hvisits⟩
  · cases ok
    exact ⟨tree, p.noiseState, rfl, hvisits⟩

theorem of_absorbAll {leaves : List Tree.Leaf} {es : List Evaluation}
    (hlength : es.length = leaves.length) (ok : p.absorbAll leaves es = .ok p') :
    ∃ tree state, p' = { p with tree, noiseState := state } ∧
      tree.top.visits = p.visits + leaves.length := by
  induction leaves generalizing p es with
  | nil =>
    cases ok
    exact ⟨p'.tree, p'.noiseState, rfl, rfl⟩
  | cons leaf leaves ih =>
    cases es with
    | nil => cases hlength
    | cons e es =>
      rw [absorbAll] at ok
      obtain ⟨p₁, hfirst, ok⟩ := bind_eq_ok ok
      obtain ⟨tree₁, state₁, rfl, hvisits₁⟩ := of_absorb hfirst
      obtain ⟨tree, state, rfl, hvisits⟩ := ih (Nat.succ.inj hlength) ok
      refine ⟨tree, state, rfl, ?_⟩
      rw [hvisits, List.length_cons]
      show tree₁.top.visits + leaves.length = _
      omega

/-- A step of the search asks once for all leaves, if it finds any. -/
theorem of_search (hasks : p.search.Asks fits asked p') :
    ∃ leaves tree, p.tree.gather p.options p.options.virtualLosses [] = .ok (leaves, tree) ∧
      (leaves = [] ∧ asked = [] ∧ p' = { p with tree } ∨
        leaves ≠ [] ∧ asked = [leaves.map (·.position)] ∧ ∃ answers : List Evaluation,
          fits (leaves.map (·.position)) answers ∧ answers.length = leaves.length ∧
          absorbAll { p with tree, inferences := p.inferences + leaves.length } leaves answers =
            .ok p') := by
  unfold search at hasks
  obtain ⟨⟨leaves, tree⟩, before, after, hbefore, hrest, rfl⟩ := hasks.bind
  obtain ⟨hgather, rfl⟩ := hbefore.of_except
  refine ⟨leaves, tree, hgather, ?_⟩
  simp only [List.nil_append] at hrest ⊢
  split at hrest
  · rename_i hempty
    cases hrest
    exact .inl ⟨List.isEmpty_iff.mp hempty, rfl, rfl⟩
  · rename_i hempty
    cases hrest with
    | @ask _ _ answers asked _ hfits hrest =>
      change Inquiry.Asks fits (if _ then _ else _) _ _ at hrest
      split at hrest
      · rename_i hlength
        obtain ⟨habsorb, rfl⟩ := hrest.of_except
        exact .inr ⟨mt List.isEmpty_iff.mpr hempty, rfl, answers, hfits, hlength, habsorb⟩
      · cases hrest

/-- What a step of the search does to the count of visits, and how much it asks. -/
theorem visits_search (hasks : p.search.Asks fits asked p') (hcount : 0 < p.options.virtualLosses) :
    p'.options = p.options ∧ p.visits < p'.visits ∧
      p'.visits ≤ p.visits + p.options.virtualLosses ∧
      ∀ positions ∈ asked, 1 ≤ positions.length ∧ positions.length ≤ p.options.virtualLosses := by
  obtain ⟨leaves, tree, hgather, hrest⟩ := of_search hasks
  obtain ⟨hvisits, -, hmost, hsome⟩ := Tree.gather_counts hgather
  have hsome := hsome hcount rfl
  rw [List.length_nil, Nat.add_zero] at hmost
  rcases hrest with ⟨rfl, rfl, rfl⟩ | ⟨hne, rfl, answers, -, hlength, habsorb⟩
  · exact ⟨rfl, hsome, hmost, fun _ hmem => absurd hmem List.not_mem_nil⟩
  · obtain ⟨tree', state, rfl, hvisits'⟩ := of_absorbAll hlength habsorb
    have hvisits' : tree'.top.visits = tree.top.visits + leaves.length := hvisits'
    refine ⟨rfl, ?_, ?_, ?_⟩
    · show p.tree.top.visits < tree'.top.visits
      omega
    · show tree'.top.visits ≤ p.tree.top.visits + p.options.virtualLosses
      omega
    · intro positions hmem
      rw [List.mem_singleton.mp hmem, List.length_map]
      have hpos := List.length_pos_iff.mpr hne
      omega

/-- The first step from a root that was not expanded visits it once, and asks about it alone. -/
theorem first_search (hposition : p.position? = some root) (hexpanded : p.tree.top.expanded = false)
    (hover : root.isOver = false) (hcount : 0 < p.options.virtualLosses)
    (hasks : p.search.Asks fits asked p') : asked = [[root]] ∧ p'.visits = p.visits + 1 := by
  obtain ⟨leaves, tree, hgather, hrest⟩ := of_search hasks
  rw [Tree.gather_of_unexpanded_top hposition hexpanded hover hcount] at hgather
  cases hgather
  rcases hrest with ⟨hnil, -⟩ | ⟨-, rfl, answers, -, hlength, habsorb⟩
  · cases hnil
  · obtain ⟨tree', state, rfl, hvisits⟩ := of_absorbAll hlength habsorb
    refine ⟨rfl, ?_⟩
    show tree'.top.visits = p.tree.top.visits + 1
    rw [hvisits]
    show (p.tree.along .addLoss []).top.visits + 1 = _
    rw [Tree.top_along, Node.visits_addLoss]

/-! ## The search goes on until the root has its visits -/

/-- What a search asks, step by step, until the root has been visited often enough. -/
inductive Searches (target : Nat) : Player → List (List Position) → Player → Prop where
  | enough {p : Player} (h : target ≤ p.visits) : Searches target p [] p
  | more {p p₁ p' : Player} {first rest : List (List Position)} (h : p.visits < target)
      (hfirst : p.search.Asks Evaluation.RightSized first p₁)
      (hrest : Searches target p₁ rest p') : Searches target p (first ++ rest) p'

theorem Searches.eq_of_enough (h : Searches target p asked p') (henough : target ≤ p.visits) :
    p' = p ∧ asked = [] := by
  cases h with
  | enough => exact ⟨rfl, rfl⟩
  | more hless => exact absurd henough (Nat.not_le.mpr hless)

/-- The search ends: it takes no more steps than it wants visits. -/
theorem searchUntil_asks_iff (hcount : 0 < p.options.virtualLosses)
    (hsteps : target ≤ p.visits + steps) :
    (searchUntil target steps p).Asks Evaluation.RightSized asked p' ↔
      Searches target p asked p' := by
  induction steps generalizing p asked with
  | zero =>
    constructor
    · intro hasks
      cases hasks
      exact .enough hsteps
    · intro hsearches
      obtain ⟨rfl, rfl⟩ := hsearches.eq_of_enough hsteps
      exact .done _
  | succ steps ih =>
    rw [searchUntil]
    split
    · rename_i hless
      -- A step leaves less to do for the others.
      have hgoes : ∀ {first : List (List Position)} {p₁ : Player},
          p.search.Asks Evaluation.RightSized first p₁ →
          0 < p₁.options.virtualLosses ∧ target ≤ p₁.visits + steps := by
        intro first p₁ hfirst
        obtain ⟨hoptions, hmore, -⟩ := visits_search hfirst hcount
        exact ⟨hoptions ▸ hcount, by omega⟩
      constructor
      · intro hasks
        obtain ⟨p₁, first, rest, hfirst, hrest, rfl⟩ := hasks.bind
        obtain ⟨hcount₁, hsteps₁⟩ := hgoes hfirst
        exact .more hless hfirst ((ih hcount₁ hsteps₁).mp hrest)
      · intro hsearches
        cases hsearches with
        | enough henough => exact absurd hless (Nat.not_lt.mpr henough)
        | more _ hfirst hrest =>
          obtain ⟨hcount₁, hsteps₁⟩ := hgoes hfirst
          exact hfirst.andThen ((ih hcount₁ hsteps₁).mpr hrest)
    · rename_i henough
      have henough := Nat.le_of_not_lt henough
      constructor
      · intro hasks
        cases hasks
        exact .enough henough
      · intro hsearches
        obtain ⟨rfl, rfl⟩ := hsearches.eq_of_enough henough
        exact .done _

/-- The last step goes beyond the target by less than it selects. -/
theorem Searches.visits (h : Searches target p asked p') (hcount : 0 < p.options.virtualLosses) :
    target ≤ p'.visits ∧ p'.visits ≤ max p.visits (target + p.options.virtualLosses - 1) ∧
      ∀ positions ∈ asked, 1 ≤ positions.length ∧ positions.length ≤ p.options.virtualLosses := by
  induction h with
  | enough henough =>
    exact ⟨henough, Nat.le_max_left .., fun _ hmem => absurd hmem List.not_mem_nil⟩
  | @more p p₁ p' first rest hless hfirst _ ih =>
    obtain ⟨hoptions, -, hmost, hcalls⟩ := visits_search hfirst hcount
    obtain ⟨henough, hmost', hcalls'⟩ := ih (hoptions ▸ hcount)
    rw [hoptions] at hmost' hcalls'
    refine ⟨henough, by omega, ?_⟩
    intro positions hmem
    rcases List.mem_append.mp hmem with hmem | hmem
    · exact hcalls positions hmem
    · exact hcalls' positions hmem

/-! ## The whole suggestion -/

/-- The visits to the root once it is expanded, before the readouts. -/
def base (p : Player) : Nat := if p.tree.top.expanded then p.visits else 1

/-- What comes of a suggestion in the position of the root. -/
structure Suggested (p : Player) (root : Position) (g : Game) (readouts : Nat)
    (asked : List (List Position)) (m : Move) (p' : Player) : Prop where
  position : p'.position? = some root
  /-- The root is expanded by a first step, and then searched until it has its visits. -/
  searches : ∃ p₁ first rest,
    (if p.tree.top.expanded then pure p else p.search).Asks Evaluation.RightSized first p₁ ∧
      p₁.visits = p.base ∧ Searches (p₁.visits + readouts) p₁ rest p' ∧ asked = first ++ rest
  least : p.base + readouts ≤ p'.visits
  most : p'.visits ≤ p.base + readouts + p.options.virtualLosses - 1
  idle : readouts = 0 → p'.visits = p.base
  calls : ∀ positions ∈ asked,
    1 ≤ positions.length ∧ positions.length ≤ p.options.virtualLosses
  first : p.tree.top.expanded = false → asked.head? = some [root]
  resigns : m = .resign ↔
    g.options.resignEnabled = true ∧ p'.outlook < g.options.resignThreshold
  favourite : m ≠ .resign → root.isLegal m = true ∧ ∃ below, (m, below) ∈ p'.tree.branches ∧
    ∀ b ∈ p'.tree.branches, b.2.top.visits ≤ below.top.visits ∧
      (b.2.top.visits = below.top.visits →
        (b.2.top.prior.totalOrder below.top.prior).isLE ∧ ¬below.top.prior < b.2.top.prior)

/-- The answer is to resign if the outlook is too bad, and else the favourite. -/
theorem of_conclude (hasks : (conclude g p).Asks fits asked (m, p')) :
    p' = p ∧ (g.options.resignEnabled = true ∧ p.outlook < g.options.resignThreshold ∧ m = .resign ∨
      ¬(g.options.resignEnabled = true ∧ p.outlook < g.options.resignThreshold) ∧
        p.favourite? = some m) := by
  unfold conclude at hasks
  split at hasks
  · rename_i hbad
    cases hasks
    rw [Bool.and_eq_true, decide_eq_true_eq] at hbad
    exact ⟨rfl, .inl ⟨hbad.1, hbad.2, rfl⟩⟩
  · rename_i hfair
    rw [Bool.and_eq_true, decide_eq_true_eq] at hfair
    split at hasks
    · rename_i hfavourite
      cases hasks
      exact ⟨rfl, .inr ⟨hfair, hfavourite⟩⟩
    · cases hasks

/-- The first step of a suggestion expands the root, or there is none. -/
theorem Awaits.of_first (h : p.Awaits root []) (hbalanced : p.tree.Balanced)
    (hover : root.isOver = false)
    (hasks : (if p.tree.top.expanded then pure p else p.search).Asks fits asked p') :
    p'.options = p.options ∧ p'.visits = p.base ∧
      (p.tree.top.expanded = true ∧ asked = [] ∨
        p.tree.top.expanded = false ∧ asked = [[root]]) := by
  unfold base
  split at hasks
  · rename_i hexpanded
    cases hasks
    exact ⟨rfl, (if_pos hexpanded).symm, .inl ⟨hexpanded, rfl⟩⟩
  · rename_i hexpanded
    have hbare := (Bool.not_eq_true _).mp hexpanded
    have hnone : p.visits = 0 := by
      refine hbalanced.tallied.leaf hbare fun position hposition => ?_
      rw [Option.some.inj (hposition.symm.trans h.known)]
      exact hover
    obtain ⟨hoptions, -⟩ := visits_search hasks h.virtualLosses_pos
    obtain ⟨rfl, hvisits⟩ := first_search h.known hbare hover h.virtualLosses_pos hasks
    rw [if_neg hexpanded, hvisits, hnone]
    exact ⟨hoptions, rfl, .inr ⟨hbare, rfl⟩⟩

/-- Whatever calls were made before, a suggestion in the position of the root meets no fault: it
searches until the root has its visits, and answers with the favourite or resigns. -/
theorem Called.suggests_favourite (h : Called start p asked₀) (hroot : p.position? = some root)
    (hstep : g.position.agrees root = true) (hover : root.isOver = false) (readouts : Nat) :
    (p.suggest g readouts).Tells Evaluation.RightSized fun asked s =>
      p.Suggested root g readouts asked s.1 s.2 := by
  obtain ⟨line, sent, hcourse⟩ := h.course
  obtain ⟨root', -, hawaits⟩ := hcourse.kept.awaits
  obtain rfl : root = root' := Option.some.inj (hroot.symm.trans hawaits.known)
  have hcount := hawaits.virtualLosses_pos
  refine (hawaits.suggest hover hstep readouts).tells ?_
  rintro asked ⟨m, p'⟩ hasks ⟨hlegal, hafter⟩
  obtain ⟨p₁, first, rest, hfirst, hrest, rfl, hlast⟩ := asks_of_suggest hasks
  obtain ⟨hoptions, hbase, hfirsts⟩ := hawaits.of_first hcourse.kept.balanced hover hfirst
  have hsearches := (searchUntil_asks_iff (hoptions ▸ hcount) (Nat.le_refl _)).mp hrest
  obtain ⟨hleast, hmost, hcalls⟩ := hsearches.visits (hoptions ▸ hcount)
  rw [hbase] at hleast hmost
  rw [hoptions] at hmost hcalls
  obtain ⟨-, hanswer⟩ := of_conclude hlast
  show p.Suggested root g readouts (first ++ rest) m p'
  refine ⟨hafter.known, ⟨p₁, first, rest, hfirst, hbase, hsearches, rfl⟩, hleast, by omega, ?_, ?_,
    ?_, ?_, ?_⟩
  · rintro rfl
    obtain ⟨rfl, -⟩ := hsearches.eq_of_enough (Nat.le_refl _)
    exact hbase
  · intro positions hmem
    rcases List.mem_append.mp hmem with hmem | hmem
    · rcases hfirsts with ⟨-, rfl⟩ | ⟨-, rfl⟩
      · cases hmem
      · rw [List.mem_singleton.mp hmem]
        exact ⟨Nat.le_refl 1, hcount⟩
    · exact hcalls positions hmem
  · intro hbare
    rcases hfirsts with ⟨hexpanded, -⟩ | ⟨-, rfl⟩
    · rw [hexpanded] at hbare
      cases hbare
    · rfl
  · rcases hanswer with ⟨henabled, hbad, rfl⟩ | ⟨hfair, hfavourite⟩
    · exact ⟨fun _ => ⟨henabled, hbad⟩, fun _ => rfl⟩
    · refine ⟨?_, fun hbad => absurd hbad hfair⟩
      rintro rfl
      cases hafter.isLegal_of_favourite? hfavourite
  · intro hstays
    rcases hanswer with ⟨-, -, rfl⟩ | ⟨-, hfavourite⟩
    · exact absurd rfl hstays
    · exact ⟨hafter.isLegal_of_favourite? hfavourite, branch_of_favourite? hfavourite⟩

/-- The first suggestion of a new player in the first position of a game. -/
theorem suggests_favourite_from_start : ∃ p,
    Player.new "uniform" .usual Noise.dirichlet (.initial GameOptions.usualKomi) = .ok p ∧
      (p.suggest (.new "black" "white" .usual) 8).Tells Evaluation.RightSized fun asked s =>
        p.Suggested (.initial GameOptions.usualKomi) (.new "black" "white" .usual) 8 asked
          s.1 s.2 := by
  obtain ⟨p, hnew⟩ := Player.exists_new "uniform" .usual Noise.dirichlet
    (.initial GameOptions.usualKomi) (by decide)
  exact ⟨p, hnew, (Called.new hnew).suggests_favourite (Awaits.new hnew).known (by decide) rfl 8⟩

end Player

end Goban
