import Goban.Proofs.Search.Calls
import Goban.Proofs.Search.Inquiries
import Goban.Proofs.Search.Leaves

/-!
# Players between calls

In the middle of a search a player awaits the evaluations of some leaves (`Player.Awaits`). Between
its calls it awaits none, and its tree is grown and at rest. A search brings it back there and
expands the root (`Player.Awaits.search`); a move leads to the tree below its branch, or to a new
one (`Player.Awaits.advance`). So no call of a player ever meets a fault, and it refuses no move
that the rules allow (`Player.Reachable.in_order`).
-/

namespace Goban

namespace Player

variable {p p' : Player} {root : Position} {leaf : Tree.Leaf} {leaves : List Tree.Leaf}
  {m : Move} {g : Game}

/-- A player with a known position awaits the evaluations of some leaves. -/
structure Awaits (p : Player) (root : Position) (leaves : List Tree.Leaf) : Prop where
  valid : p.options.isValid = true
  gathered : p.tree.Gathered leaves
  known : p.position? = some root

theorem exists_new (modelName : String) (options : PlayerOptions) (noise : NoiseSource)
    (root : Position) (h : options.isValid = true) :
    ∃ p, new modelName options noise root = .ok p := by
  unfold Player.new
  rw [if_pos h]
  exact ⟨_, rfl⟩

theorem Awaits.new {modelName : String} {options : PlayerOptions} {noise : NoiseSource}
    (h : new modelName options noise root = .ok p) : p.Awaits root [] := by
  unfold Player.new at h
  split at h
  · rename_i hvalid
    cases h
    exact ⟨hvalid, .of_grown (.root root), rfl⟩
  · cases h

/-! ## Searching -/

theorem Awaits.virtualLosses_pos {leaves : List Tree.Leaf} (h : p.Awaits root leaves) :
    0 < p.options.virtualLosses := by
  have hvalid := h.valid
  simp only [PlayerOptions.isValid, Bool.and_eq_true, decide_eq_true_eq] at hvalid
  exact hvalid.1.1.1.1

/-- Noise changes priors below the root at most. -/
theorem changes_mixNoise (p : Player) : p.tree.Changes p.mixNoise.tree := by
  obtain ⟨modelName, options, noise, noiseState, ⟨n, bs⟩, inferences⟩ := p
  unfold mixNoise
  simp only
  split
  · exact .single (.reprior _ n bs _)
  · exact .refl

theorem Awaits.mixNoise (h : p.Awaits root leaves) : p.mixNoise.Awaits root leaves := by
  obtain ⟨modelName, options, noise, noiseState, ⟨n, bs⟩, inferences⟩ := p
  unfold Player.mixNoise
  simp only
  split
  · exact ⟨h.valid, h.gathered.mapPriors _ _, h.known⟩
  · exact h

theorem Awaits.mixNoise_if (h : p.Awaits root leaves) (mixed : Bool) :
    (if mixed then p.mixNoise else p).Awaits root leaves := by
  cases mixed with
  | true => exact h.mixNoise
  | false => exact h

/-- The evaluation of a leaf is absorbed, which expands the leaf. -/
theorem Awaits.absorb {e : Evaluation} (h : p.Awaits root (leaf :: leaves))
    (hsize : e.policy.length = policySize) :
    ∃ p', p.absorb leaf e = .ok p' ∧ p'.Awaits root leaves ∧ p.tree.Changes p'.tree ∧
      p'.tree.IsExpanded leaf.path ∧ p'.inferences = p.inferences := by
  obtain ⟨tree, htree, hgathered, hposition, hchanges, hexpanded⟩ := h.gathered.exists_absorb hsize
  have habsorbed : ({ p with tree } : Player).Awaits root leaves :=
    ⟨h.valid, hgathered, hposition.trans h.known⟩
  unfold Player.absorb
  simp only [htree, bind, Except.bind]
  split
  · have hmixed := changes_mixNoise { p with tree }
    exact ⟨_, rfl, habsorbed.mixNoise, hchanges.trans hmixed, hmixed.keeps.isExpanded hexpanded,
      inferences_mixNoise _⟩
  · exact ⟨_, rfl, habsorbed, hchanges, hexpanded, rfl⟩

/-- All evaluations are absorbed, which expands the leaves. -/
theorem Awaits.absorbAll {es : List Evaluation} (h : p.Awaits root leaves)
    (hlength : es.length = leaves.length) (hsize : ∀ e ∈ es, e.policy.length = policySize) :
    ∃ p', p.absorbAll leaves es = .ok p' ∧ p'.Awaits root [] ∧ p.tree.Changes p'.tree ∧
      (∀ leaf ∈ leaves, p'.tree.IsExpanded leaf.path) ∧ p'.inferences = p.inferences := by
  induction leaves generalizing p es with
  | nil =>
    cases List.length_eq_zero_iff.mp hlength
    exact ⟨p, rfl, h, .refl, fun leaf hleaf => absurd hleaf List.not_mem_nil, rfl⟩
  | cons leaf leaves ih =>
    cases es with
    | nil => cases hlength
    | cons e es =>
      obtain ⟨p₁, habsorb, h₁, hchanges₁, hexpanded₁, hcount₁⟩ :=
        h.absorb (hsize e List.mem_cons_self)
      obtain ⟨p', habsorbAll, h', hchanges, hexpanded, hcount⟩ :=
        ih h₁ (Nat.succ.inj hlength) fun e he => hsize e (List.mem_cons_of_mem _ he)
      refine ⟨p', ?_, h', hchanges₁.trans hchanges, ?_, hcount.trans hcount₁⟩
      · rw [Player.absorbAll, habsorb]
        exact habsorbAll
      · intro leaf' hleaf'
        rcases List.mem_cons.mp hleaf' with rfl | hleaf'
        · exact hchanges.keeps.isExpanded hexpanded₁
        · exact hexpanded leaf' hleaf'

/-- In one step of the search some leaves are gathered in the tree, sent to the model and
expanded. -/
structure Sends (p : Player) (leaves : List Tree.Leaf) (tree : Tree)
    (asked : List (List Position)) (p' : Player) : Prop where
  gather : p.tree.gather p.options p.options.virtualLosses [] = .ok (leaves, tree)
  gathered : tree.Gathered leaves
  known : p.tree.Extends tree
  before : p.tree.Changes tree
  after : tree.Changes p'.tree
  expanded : ∀ leaf ∈ leaves, p'.tree.IsExpanded leaf.path
  asked : asked.flatten = leaves.map (·.position)
  inferences : p'.inferences = p.inferences + leaves.length

/-- One step of the search meets no fault, and leaves a root expanded that is not over. -/
theorem Awaits.search (h : p.Awaits root []) :
    p.search.Tells Evaluation.RightSized fun asked p' =>
      p'.Awaits root [] ∧ (root.isOver = false → p'.tree.top.expanded = true) ∧
        ∃ leaves tree, p.Sends leaves tree asked p' := by
  obtain ⟨leaves, tree, hgather, hgathered, hextends, hbefore, htop⟩ :=
    h.gathered.grown.exists_gather p.options p.options.virtualLosses h.known
  have hawaits : ({ p with tree } : Player).Awaits root leaves :=
    ⟨h.valid, hgathered, hextends.position_eq h.known⟩
  -- The root is a leaf unless it was expanded, or is over.
  have hroot : ∀ t : Tree, tree.Changes t → (∀ leaf ∈ leaves, t.IsExpanded leaf.path) →
      root.isOver = false → t.top.expanded = true := by
    intro t hafter hexpanded hover
    rw [← Tree.isExpanded_nil]
    cases hwas : p.tree.top.expanded with
    | true =>
      have hchanges : p.tree.Changes t := hbefore.trans hafter
      exact hchanges.keeps.isExpanded (Tree.isExpanded_nil.mpr hwas)
    | false =>
      obtain ⟨leaf, hleaf, hpath⟩ := htop h.virtualLosses_pos hwas hover
      exact hpath ▸ hexpanded leaf hleaf
  unfold Player.search
  rw [hgather]
  show Inquiry.Tells _ _ (if leaves.isEmpty then _ else _)
  split
  · rename_i hempty
    obtain rfl := List.isEmpty_iff.mp hempty
    have hnone : ∀ leaf ∈ ([] : List Tree.Leaf), tree.IsExpanded leaf.path :=
      fun leaf hleaf => absurd hleaf List.not_mem_nil
    exact ⟨hawaits, hroot tree .refl hnone, [], tree, hgather, hgathered, hextends, hbefore,
      .refl, hnone,
      rfl, rfl⟩
  · intro answers hanswers
    have hlength : answers.length = leaves.length := by
      rw [hanswers.1, List.length_map]
    obtain ⟨p', habsorb, hp', hafter, hexpanded, hinferences⟩ := Awaits.absorbAll
      (p := { p with tree, inferences := p.inferences + leaves.length })
      ⟨hawaits.valid, hawaits.gathered, hawaits.known⟩ hlength hanswers.2
    show Inquiry.Tells _ _ (if answers.length = leaves.length then _ else _)
    rw [if_pos hlength, habsorb]
    exact ⟨hp', hroot p'.tree hafter hexpanded, leaves, tree, hgather, hgathered, hextends,
      hbefore, hafter, hexpanded, List.append_nil _, hinferences⟩

/-- Searching on meets no fault and leaves the root expanded. -/
theorem Awaits.searchUntil (h : p.Awaits root []) (hover : root.isOver = false)
    (hexpanded : p.tree.top.expanded = true) (target steps : Nat) :
    (Player.searchUntil target steps p).Always Evaluation.RightSized fun p' =>
      p'.Awaits root [] ∧ p'.tree.top.expanded = true := by
  induction steps generalizing p with
  | zero => exact ⟨h, hexpanded⟩
  | succ steps ih =>
    rw [Player.searchUntil]
    split
    · rw [Inquiry.always_bind]
      refine h.search.always ?_
      rintro asked p' ⟨h', hexpanded', -⟩
      exact ih h' (hexpanded' hover)
    · exact ⟨h, hexpanded⟩

/-- An expanded root has a favourite. -/
theorem Awaits.favourite?_ne_none (h : p.Awaits root []) (hexpanded : p.tree.top.expanded = true) :
    p.favourite? ≠ none := by
  obtain ⟨place, b, hplace, hb⟩ := exists_lastGreatest branchOrder (fun b => b.2.top)
    (h.gathered.grown.sound.branches_ne_nil hexpanded)
  unfold favourite?
  simp only [hplace, bind, Option.bind, hb]
  exact nofun

/-- The favourite is a legal move. -/
theorem Awaits.isLegal_of_favourite? (h : p.Awaits root []) (hm : p.favourite? = some m) :
    root.isLegal m = true := by
  unfold favourite? at hm
  simp only [bind, Option.bind] at hm
  split at hm
  · cases hm
  · rename_i place hplace
    obtain ⟨⟨move, below⟩, hbranch, rfl⟩ := Option.map_eq_some_iff.mp hm
    have hmem : (move, below) ∈ p.tree.branches := List.mem_of_getElem? hbranch
    have hexpanded : p.tree.top.expanded = true := by
      by_contra hbare
      rw [h.gathered.grown.sound.bare ((Bool.not_eq_true _).mp hbare)] at hmem
      cases hmem
    obtain ⟨pos, hpos, -, hmoves⟩ := h.gathered.grown.sound.full hexpanded
    obtain rfl : root = pos := Option.some.inj (h.known.symm.trans hpos)
    exact Position.isLegal_of_mem_legalMoves (hmoves.subset (List.mem_map_of_mem hmem))

theorem Awaits.in_step (h : p.Awaits root []) (hstep : g.position.agrees root = true) :
    (p.position?.any g.position.agrees) = true := by
  rw [h.known]
  exact hstep

/-- What a player does after its searches. -/
def conclude (g : Game) (p : Player) : Inquiry (Move × Player) :=
  if g.options.resignEnabled && decide (p.outlook < g.options.resignThreshold) then
    pure (.resign, p)
  else
    match p.favourite? with
    | some m => pure (m, p)
    | none => .fail .noMove

theorem suggest_eq (p : Player) (hstep : (p.position?.any g.position.agrees) = true)
    (readouts : Nat) : p.suggest g readouts =
      (if p.tree.top.expanded then pure p else p.search) >>= fun p =>
        Player.searchUntil (p.visits + readouts) readouts p >>= conclude g := by
  unfold suggest
  rw [hstep]
  simp only [Bool.not_true, if_neg Bool.false_ne_true]
  split <;> rfl

/-- With an expanded root the choice meets no fault, and is to resign or a legal move. -/
theorem Awaits.conclude (h : p.Awaits root []) (hexpanded : p.tree.top.expanded = true) :
    (conclude g p).Always Evaluation.RightSized fun suggestion =>
      (suggestion.1 = .resign ∨ root.isLegal suggestion.1 = true) ∧
        suggestion.2.Awaits root [] := by
  unfold Player.conclude
  split
  · exact ⟨.inl rfl, h⟩
  · split
    · rename_i hfavourite
      exact ⟨.inr (h.isLegal_of_favourite? hfavourite), h⟩
    · rename_i hnone
      exact h.favourite?_ne_none hexpanded hnone

/-- A suggestion meets no fault and is to resign or a legal move, and the player is back between
calls. -/
theorem Awaits.suggest (h : p.Awaits root []) (hover : root.isOver = false)
    (hstep : g.position.agrees root = true) (readouts : Nat) :
    (p.suggest g readouts).Always Evaluation.RightSized fun suggestion =>
      (suggestion.1 = .resign ∨ root.isLegal suggestion.1 = true) ∧
        suggestion.2.Awaits root [] := by
  have hroot : (if p.tree.top.expanded then pure p else p.search).Always Evaluation.RightSized
      fun p' => p'.Awaits root [] ∧ p'.tree.top.expanded = true := by
    split
    · rename_i hexpanded
      exact ⟨h, hexpanded⟩
    · exact h.search.always fun _ _ hp' => ⟨hp'.1, hp'.2.1 hover⟩
  rw [suggest_eq p (h.in_step hstep)]
  refine Inquiry.always_bind.mpr (hroot.mono ?_)
  rintro p₁ ⟨h₁, hexpanded₁⟩
  refine Inquiry.always_bind.mpr ((h₁.searchUntil hover hexpanded₁ _ _).mono ?_)
  rintro p₂ ⟨h₂, hexpanded₂⟩
  exact h₂.conclude hexpanded₂

/-! ## Following the game -/

/-- The move of a branch can be played, and leads to the position below if that is known. -/
theorem Awaits.branch {below : Tree} {found : Move} (h : p.Awaits root [])
    (hfind : p.tree.branches.find? (·.1 == m) = some (found, below)) :
    (m, below) ∈ p.tree.branches ∧ Tree.Grown [] below ∧ ∃ next, root.play m = .ok next ∧
      ∀ known, below.top.position = some known → known = next := by
  have hmem := List.mem_of_find?_eq_some hfind
  obtain rfl : found = m := by simpa using List.find?_some hfind
  obtain ⟨pos, next, hpos, hplay, hfollows⟩ := h.gathered.grown.sound.exists_play hmem
  obtain rfl : root = pos := Option.some.inj (h.known.symm.trans hpos)
  obtain ⟨i, hi⟩ := List.mem_iff_getElem?.mp hmem
  have hat : p.tree.at? [i] = some below := by
    obtain ⟨modelName, options, noise, noiseState, ⟨n, bs⟩, inferences⟩ := p
    exact Tree.at?_cons_eq_some.mpr ⟨found, below, hi, rfl⟩
  exact ⟨hmem, h.gathered.grown.at_rest hat, next, hplay, hfollows⟩

/-- A move leads into the tree below its branch, or to a new one if it has no branch. -/
inductive Follows (p : Player) (m : Move) (next : Position) : Player → Prop where
  | branch {below : Tree} {p' : Player} (hbranch : (m, below) ∈ p.tree.branches)
      (hknown : ∀ known, below.top.position = some known → known = next)
      (hchanges : (below.know next).reverse.Changes p'.tree)
      (hcount : p'.inferences = p.inferences) : Follows p m next p'
  | fresh {p' : Player} (hnone : ∀ b ∈ p.tree.branches, b.1 ≠ m) (htree : p'.tree = .root next)
      (hcount : p'.inferences = p.inferences) : Follows p m next p'

theorem Follows.descend {below : Tree} {next : Position} (hbranch : (m, below) ∈ p.tree.branches)
    (hknown : ∀ known, below.top.position = some known → known = next) :
    p.Follows m next (p.descend below next) := by
  refine .branch hbranch hknown ?_ (inferences_descend p below next)
  rw [descend_eq]
  split
  · exact changes_mixNoise { p with tree := (below.know next).reverse }
  · exact .refl

/-- A player follows the moves that the rules allow. -/
theorem Awaits.advance {next : Position} (h : p.Awaits root []) (hplay : root.play m = .ok next) :
    ∃ p', p.advance m = .ok p' ∧ p'.Awaits next [] ∧ p.Follows m next p' := by
  cases hfind : p.tree.branches.find? (·.1 == m) with
  | some b =>
    obtain ⟨found, below⟩ := b
    obtain ⟨hmem, hgrown, next', hplay', hfollows⟩ := h.branch hfind
    obtain rfl : next = next' := Except.ok.inj (hplay.symm.trans hplay')
    have hmoved : ({ p with tree := (below.know next).reverse } : Player).Awaits next [] := by
      refine ⟨h.valid, .of_grown ((hgrown.know hfollows).reverse rfl), ?_⟩
      rw [position?, Tree.top_reverse, Tree.top_know]
    refine ⟨_, advance_of_branch hfind (positionAfter_eq h.known hplay hfollows), ?_,
      .descend hmem hfollows⟩
    rw [descend_eq]
    exact hmoved.mixNoise_if below.top.expanded
  | none =>
    refine ⟨{ p with tree := .root next }, ?_, ⟨h.valid, .of_grown (.root next), rfl⟩,
      .fresh ?_ rfl rfl⟩
    · rw [advance_of_none hfind h.known, hplay]
    · simpa using List.find?_eq_none.mp hfind

/-- A move that the rules refuse is refused for the same reason, and leaves the player as it was. -/
theorem Awaits.run_moveRoot_refused {e : IllegalMove} (h : p.Awaits root [])
    (hplay : root.play m = .error e) : (moveRoot m).run p = .error (.refused e) p := by
  rw [run_moveRoot]
  cases hfind : p.tree.branches.find? (·.1 == m) with
  | some b =>
    -- A move that has a branch can be played.
    obtain ⟨-, -, next, hplayed, -⟩ := h.branch hfind
    rw [hplay] at hplayed
    cases hplayed
  | none =>
    rw [rootPosition, h.known]
    simp only [hplay]

/-- A player refuses the moves that the rules refuse, for the same reason. -/
theorem Awaits.advance_refused {e : IllegalMove} (h : p.Awaits root [])
    (hplay : root.play m = .error e) : p.advance m = .error (.refused e) := by
  unfold Player.advance Call.outcome
  rw [h.run_moveRoot_refused hplay]

/-! ## Whole runs -/

/-- The players that come out of calls, with answers of the right size. Suggestions are asked for in
the position of the root only, and not once it is over. Any move may be made in any game or followed;
if it is refused, the player goes on from where the call left off. -/
inductive Reachable : Player → Prop where
  | new {modelName : String} {options : PlayerOptions} {noise : NoiseSource} {root : Position}
      {p : Player} (hover : root.isOver = false)
      (h : Player.new modelName options noise root = .ok p) : Reachable p
  | suggest {p p' : Player} {g : Game} {readouts : Nat} {m : Move} (h : Reachable p)
      (hstep : (p.position?.any g.position.agrees) = true) (hover : g.position.isOver = false)
      (hgives : (p.suggest g readouts).Gives Evaluation.RightSized (m, p')) : Reachable p'
  | play {p : Player} (g : Game) (m : Move) (h : Reachable p) :
      Reachable ((playMove m).after (g, p)).2
  | follow {p : Player} (m : Move) (h : Reachable p) : Reachable ((followMove m).after p)

/-- What holds of a player between two calls. -/
structure InOrder (p : Player) : Prop where
  /-- All nodes of the tree are in order, and no visit is under way. -/
  nodes : ∀ path s, p.tree.at? path = some s → s.Sound 0
  /-- The position of the root is known, and moves are followed or refused by the rules alone: a
  call breaks no promise, and one that is refused leaves the player as it was. -/
  root : ∃ root, p.position? = some root ∧ ∀ m,
    (∀ next, root.play m = .ok next →
      ∃ p', (moveRoot m).run p = .ok () p' ∧ p'.position? = some next) ∧
    ∀ e, root.play m = .error e → (moveRoot m).run p = .error (.refused e) p
  /-- No suggestion meets a fault. -/
  suggests : ∀ g readouts, (p.position?.any g.position.agrees) = true → g.position.isOver = false →
    (p.suggest g readouts).Always Evaluation.RightSized fun _ => True

theorem isOver_of_agrees {pos : Position} (h : pos.agrees root = true) :
    root.isOver = pos.isOver := by
  rw [← (Position.agrees_iff.mp h).2]
  rfl

theorem Awaits.advanced (h : p.Awaits root []) (hadvance : p.advance m = .ok p') :
    ∃ next, root.play m = .ok next ∧ p'.Awaits next [] ∧ p.Follows m next p' := by
  cases hplay : root.play m with
  | error e =>
    rw [h.advance_refused hplay] at hadvance
    cases hadvance
  | ok next =>
    obtain ⟨p'', hadvance', hawaits⟩ := h.advance hplay
    rw [hadvance] at hadvance'
    cases hadvance'
    exact ⟨next, rfl, hawaits⟩

/-- Between calls a player awaits nothing, whether its last call was refused or not. -/
theorem Awaits.after_call (h : p.Awaits root []) (hcall : p' = p ∨ p.advance m = .ok p') :
    ∃ next, p'.Awaits next [] := by
  rcases hcall with rfl | hadvance
  · exact ⟨root, h⟩
  · obtain ⟨next, -, hawaits, -⟩ := h.advanced hadvance
    exact ⟨next, hawaits⟩

theorem Awaits.agrees (h : p.Awaits root []) (hstep : (p.position?.any g.position.agrees) = true)
    (hover : g.position.isOver = false) :
    g.position.agrees root = true ∧ root.isOver = false := by
  rw [h.known] at hstep
  exact ⟨hstep, (isOver_of_agrees hstep).trans hover⟩

namespace Reachable

/-- Between calls a player awaits nothing. -/
theorem awaits (h : p.Reachable) : ∃ root, p.Awaits root [] := by
  induction h with
  | new _ h => exact ⟨_, .new h⟩
  | suggest _ hstep hover hgives ih =>
    obtain ⟨root, h⟩ := ih
    obtain ⟨hagrees, hgoes⟩ := h.agrees hstep hover
    exact ⟨root, ((h.suggest hgoes hagrees _).of_gives hgives).2⟩
  | play g m _ ih =>
    obtain ⟨root, h⟩ := ih
    exact h.after_call (after_playMove m g _)
  | follow m _ ih =>
    obtain ⟨root, h⟩ := ih
    exact h.after_call (after_followMove m _)

/-- Whatever a model answers and whatever calls are made, the tree of a player is in order between
the calls, and no call meets a fault. -/
theorem in_order (h : p.Reachable) : p.InOrder := by
  obtain ⟨root, h⟩ := h.awaits
  refine ⟨?_, ⟨root, h.known, ?_⟩, ?_⟩
  · intro path s hs
    exact (h.gathered.grown.at_rest hs).sound
  · intro m
    refine ⟨?_, fun e hplay => h.run_moveRoot_refused hplay⟩
    intro next hplay
    obtain ⟨p', hadvance, hawaits, -⟩ := h.advance hplay
    exact ⟨p', Call.outcome_eq_ok_iff.mp hadvance, hawaits.known⟩
  · intro g readouts hstep hover
    obtain ⟨hagrees, hgoes⟩ := h.agrees hstep hover
    exact (h.suggest hgoes hagrees readouts).mono fun _ _ => trivial

/-- A new player in the first position of a game, after its first suggestion. -/
theorem in_order_after_suggestion : ∃ p m p',
    Player.new "uniform" .usual Noise.dirichlet (.initial GameOptions.usualKomi) = .ok p ∧
      (p.suggest (.new "black" "white" .usual) 8).Gives Evaluation.RightSized (m, p') ∧
      p'.InOrder := by
  obtain ⟨p, hnew⟩ := Player.exists_new "uniform" .usual Noise.dirichlet
    (.initial GameOptions.usualKomi) (by decide)
  have hp : p.Reachable := .new rfl hnew
  have hstep : (p.position?.any
      (Game.new "black" "white" .usual).position.agrees) = true := by
    rw [(Awaits.new hnew).known]
    decide
  obtain ⟨⟨m, p'⟩, hgives⟩ := (hp.in_order.suggests _ 8 hstep rfl).exists_gives fun positions =>
    ⟨List.replicate positions.length ⟨List.replicate policySize .zero, .zero⟩, by simp, by simp⟩
  exact ⟨p, m, p', hnew, hgives, (hp.suggest hstep rfl hgives).in_order⟩

end Reachable

end Player

end Goban
