import Goban.Proofs.Search.Odds
import Goban.Proofs.Search.Readouts

/-!
# Noise is mixed in once

A player that injects noise mixes it into the priors below its root when the root is expanded, or
when an expanded node becomes the root (`Player.mixedOnce_mixNoise`), and at no other time: a step
of the search draws no noise for a root that was expanded before (`Player.Noised.search`). So
between the calls the priors below the root are those that it was given, each mixed once with its
share of one draw, and the priors of all other nodes are those that they were given
(`Player.Informed.mixed_once`).
-/

namespace Goban

namespace Noise

theorem length_gammas (shape : Float) (count : Nat) (state : UInt64) :
    (gammas shape count state).1.length = count := by
  induction count generalizing state with
  | zero => rfl
  | succ count ih => exact congrArg (· + 1) (ih _)

/-- There is a share for each that was asked for. -/
theorem length_dirichletFrom (alpha : Single) (count attempts : Nat) (state : UInt64) :
    (dirichletFrom alpha count attempts state).1.length = count := by
  induction attempts generalizing state with
  | zero => simp [dirichletFrom, onOne]
  | succ attempts ih =>
    rw [dirichletFrom]
    simp only
    split
    · rw [List.length_map, length_gammas]
    · exact ih _

theorem length_dirichlet (alpha : Single) (count : Nat) (state : UInt64) :
    (dirichlet alpha count state).1.length = count :=
  length_dirichletFrom alpha count 1000 state

end Noise

/-- Answers of the right size, of which each may be said of its position. -/
def Evaluation.Said (said : Position → Evaluation → Prop) (positions : List Position)
    (answer : List Evaluation) : Prop :=
  Evaluation.RightSized positions answer ∧ List.Forall₂ said positions answer

/-- If something of the right size may be said of every position, every question has an answer. -/
theorem Evaluation.exists_said {said : Position → Evaluation → Prop}
    (h : ∀ position, ∃ e : Evaluation, e.policy.length = policySize ∧ said position e)
    (positions : List Position) : ∃ answer, Evaluation.Said said positions answer := by
  induction positions with
  | nil => exact ⟨[], ⟨rfl, fun _ he => absurd he List.not_mem_nil⟩, .nil⟩
  | cons position positions ih =>
    obtain ⟨e, hsize, hsaid⟩ := h position
    obtain ⟨answer, ⟨hlength, hsizes⟩, hrest⟩ := ih
    exact ⟨e :: answer, ⟨congrArg (· + 1) hlength, List.forall_mem_cons.mpr ⟨hsize, hsizes⟩⟩,
      .cons hsaid hrest⟩

namespace Tree

variable {said : Position → Evaluation → Prop} {t t' below : Tree} {m : Move} {position : Position}

/-- The branches of all nodes have the priors that they were given. -/
def AllGiven (said : Position → Evaluation → Prop) (t : Tree) : Prop :=
  ∀ path s, t.at? path = some s → s.IsGiven said

theorem AllGiven.root (position : Position) : AllGiven said (root position) := by
  intro path s hs
  cases path with
  | nil =>
    cases hs
    exact .of_unexpanded rfl
  | cons i path => cases hs

theorem AllGiven.know (h : AllGiven said t)
    (hknown : ∀ known, t.top.position = some known → known = position) :
    AllGiven said (t.know position) := by
  obtain ⟨n, bs⟩ := t
  intro path s hs
  cases path with
  | nil =>
    cases hs
    intro hexpanded
    obtain ⟨known, e, hposition, hsaid, hodds⟩ := h [] _ rfl hexpanded
    obtain rfl := hknown known hposition
    exact ⟨known, e, rfl, hsaid, hodds⟩
  | cons i path => exact h (i :: path) s hs

theorem AllGiven.reverse (h : AllGiven said t) : AllGiven said t.reverse := by
  intro path s' hs'
  obtain ⟨path', s, hs, rfl, -⟩ := exists_at?_of_reverse hs'
  exact (h path' s hs).reverse

end Tree

namespace Player

variable {said : Position → Evaluation → Prop} {start root position : Position}
  {options : PlayerOptions} {noise : NoiseSource} {p p' p'' : Player} {m : Move} {below tree : Tree}
  {leaf : Tree.Leaf} {leaves : List Tree.Leaf} {e : Evaluation} {asked : List (List Position)}

/-- Options and a source by which the priors of two branches or more are mixed with noise. -/
structure Injects (options : PlayerOptions) (noise : NoiseSource) : Prop where
  wanted : options.injectNoise = true
  alpha : .zero < options.noiseAlpha
  share : .zero < options.noiseShare
  /-- The source draws as many shares as it is asked for. -/
  draws (alpha : Single) (count : Nat) (state : UInt64) : (noise alpha count state).1.length = count

theorem Injects.wantsNoise_eq (h : Injects options noise) (count : Nat) :
    wantsNoise options count = decide (2 ≤ count) := by
  rw [wantsNoise, h.wanted, Single.not_equals_zero h.alpha, Single.not_equals_zero h.share]
  rfl

/-- The priors below the root are those that it was given, each mixed with its share of one draw,
after which nothing was drawn. -/
def IsMixed (said : Position → Evaluation → Prop) (p : Player) : Prop :=
  ∃ position e given state, p.position? = some position ∧ said position e ∧
    given.Perm (Tree.givenOdds e.policy position) ∧
    p.tree.odds = List.zipWith (fun b share => (b.1, p.mixed b.2 share)) given
      (p.noise p.options.noiseAlpha given.length state).1 ∧
    p.noiseState = (p.noise p.options.noiseAlpha given.length state).2

/-- Noise was mixed once into the priors below the root, if it has two branches or more, and into no
others. -/
structure MixedOnce (said : Position → Evaluation → Prop) (p : Player) : Prop where
  root : p.tree.top.expanded = true → 2 ≤ p.tree.branches.length → p.IsMixed said
  few : p.tree.branches.length < 2 → p.tree.IsGiven said
  others : ∀ path s, path ≠ [] → p.tree.at? path = some s → s.IsGiven said

theorem MixedOnce.of_unexpanded (h : p.tree.AllGiven said) (hleaf : p.tree.top.expanded = false) :
    p.MixedOnce said := by
  refine ⟨fun hexpanded => ?_, fun _ => h [] _ rfl, fun path s _ hs => h path s hs⟩
  rw [hleaf] at hexpanded
  cases hexpanded

/-- Where nothing was mixed yet, it is now. -/
theorem mixedOnce_mixNoise (hinjects : Injects p.options p.noise) (h : p.tree.AllGiven said) :
    p.mixNoise.MixedOnce said := by
  obtain ⟨modelName, options, noise, noiseState, ⟨n, bs⟩, inferences⟩ := p
  unfold mixNoise
  simp only [hinjects.wantsNoise_eq, decide_eq_true_eq]
  split
  · rename_i hmany
    have hlength := hinjects.draws options.noiseAlpha bs.length noiseState
    refine ⟨?_, ?_, ?_⟩
    · intro hexpanded _
      obtain ⟨position, e, hposition, hsaid, hperm⟩ := h [] _ rfl hexpanded
      have hcount : (Tree.node n bs).odds.length = bs.length := List.length_map _
      refine ⟨position, e, (Tree.node n bs).odds, noiseState, hposition, hsaid, hperm, ?_, ?_⟩
      · rw [hcount]
        exact Tree.odds_mapPriors n _ hlength
      · rw [hcount]
    · intro hfew
      exact absurd hmany (Nat.not_le_of_lt (Tree.length_mapPriors _ bs _ ▸ hfew))
    · intro path s hne hs
      cases path with
      | nil => exact absurd rfl hne
      | cons i path =>
        obtain ⟨s', hs', hexpanded, hodds, hposition⟩ := Tree.exists_at?_of_mapPriors hs
        exact (h _ s' hs').congr hexpanded (.of_eq hodds) hposition
  · rename_i hfew
    exact ⟨fun _ hmany => absurd hmany hfew, fun _ => h [] _ rfl, fun path s _ hs => h path s hs⟩

/-- What develops keeps the noise below a root that was expanded. -/
theorem MixedOnce.develops (h : p.MixedOnce said) (hdevelops : p.tree.Develops said tree)
    (hleaf : tree.top.expanded = true → p.tree.top.expanded = true) :
    ({ p with tree } : Player).MixedOnce said := by
  have hroot (hexpanded : tree.top.expanded = true) :
      tree.odds = p.tree.odds ∧ tree.top.position = p.tree.top.position := by
    obtain ⟨s', hs', -, hodds, hposition⟩ := (hdevelops []).kept _ rfl (hleaf hexpanded)
    cases hs'
    exact ⟨hodds, hposition⟩
  have hlength (hodds : tree.odds = p.tree.odds) :
      tree.branches.length = p.tree.branches.length := by
    simpa [Tree.odds] using congrArg List.length hodds
  refine ⟨?_, ?_, ?_⟩
  · intro hexpanded hmany
    obtain ⟨hodds, hposition⟩ := hroot hexpanded
    obtain ⟨position, e, given, state, hp, hsaid, hperm, hmixed, hstate⟩ :=
      h.root (hleaf hexpanded) (hlength hodds ▸ hmany)
    exact ⟨position, e, given, state, hposition.trans hp, hsaid, hperm, hodds.trans hmixed, hstate⟩
  · intro hfew hexpanded
    obtain ⟨hodds, hposition⟩ := hroot hexpanded
    have hsame := hexpanded.trans (hleaf hexpanded).symm
    exact (h.few (hlength hodds ▸ hfew)).congr hsame (.of_eq hodds) hposition hexpanded
  · intro path s' hne hs'
    exact (hdevelops path).isGiven (fun s hs => h.others path s hne hs) hs'

/-- A branch is the root of a tree without noise. -/
theorem MixedOnce.branch (h : p.MixedOnce said) (hbranch : (m, below) ∈ p.tree.branches) :
    below.AllGiven said := by
  intro path s hs
  obtain ⟨i, hi⟩ := List.mem_iff_getElem?.mp hbranch
  refine h.others (i :: path) s nofun ?_
  generalize p.tree = t at hi
  obtain ⟨n, bs⟩ := t
  exact Tree.at?_cons_eq_some.mpr ⟨m, below, hi, hs⟩

/-! ## What a call does -/

/-- A player awaits evaluations of some leaves, with noise mixed in as its options ask for it. -/
structure Noised (said : Position → Evaluation → Prop) (p : Player) (root : Position)
    (leaves : List Tree.Leaf) : Prop where
  awaits : p.Awaits root leaves
  injects : Injects p.options p.noise
  mixed : p.MixedOnce said

/-- A search goes on: its player keeps the options and the source of noise, and if the root was
expanded, the priors below it and the state of the source. -/
structure Continues (p p' : Player) : Prop where
  options : p'.options = p.options
  noise : p'.noise = p.noise
  root : p.tree.top.expanded = true → p'.tree.top.expanded = true ∧ p'.tree.odds = p.tree.odds ∧
    p'.noiseState = p.noiseState

theorem Continues.refl (p : Player) : p.Continues p := ⟨rfl, rfl, fun h => ⟨h, rfl, rfl⟩⟩

theorem Continues.trans (h : p.Continues p') (h' : p'.Continues p'') : p.Continues p'' := by
  refine ⟨h'.options.trans h.options, h'.noise.trans h.noise, fun hexpanded => ?_⟩
  obtain ⟨hexpanded', hodds, hstate⟩ := h.root hexpanded
  obtain ⟨hexpanded'', hodds', hstate'⟩ := h'.root hexpanded'
  exact ⟨hexpanded'', hodds'.trans hodds, hstate'.trans hstate⟩

theorem continues_of_develops (hdevelops : p.tree.Develops said tree) (count : Nat) :
    p.Continues { p with tree, inferences := count } := by
  refine ⟨rfl, rfl, fun hexpanded => ?_⟩
  obtain ⟨s', hs', hexpanded', hodds, -⟩ := (hdevelops []).kept _ rfl hexpanded
  cases hs'
  exact ⟨hexpanded', hodds, rfl⟩

/-- A leaf that waits is the root itself if the root was not expanded. -/
theorem Awaits.path_eq_nil (h : p.Awaits root (leaf :: leaves))
    (hexpanded : p.tree.top.expanded = false) : leaf.path = [] := by
  obtain ⟨-, s, hs, -⟩ := h.gathered.waits leaf List.mem_cons_self
  have hbare := h.gathered.grown.sound.bare hexpanded
  generalize p.tree = t at hs hbare
  obtain ⟨n, bs⟩ := t
  obtain rfl : bs = [] := hbare
  cases hpath : leaf.path with
  | nil => rfl
  | cons i path =>
    rw [hpath] at hs
    cases hs

/-- Noise is mixed in when an evaluation expands the root, and not when it expands another node. -/
theorem Noised.absorb (h : p.Noised said root (leaf :: leaves))
    (hsize : e.policy.length = policySize) (hsaid : said leaf.position e)
    (ok : p.absorb leaf e = .ok p') : p'.Noised said root leaves ∧ p.Continues p' := by
  obtain ⟨p'', habsorb, hawaits, -⟩ := h.awaits.absorb hsize
  obtain rfl := Except.ok.inj (habsorb.symm.trans ok)
  unfold Player.absorb at ok
  obtain ⟨tree, htree, ok⟩ := bind_eq_ok ok
  have hdevelops := h.awaits.gathered.develops_absorb hsaid htree
  simp only at ok
  cases hexpanded : p.tree.top.expanded with
  | true =>
    rw [hexpanded] at ok
    cases ok
    exact ⟨⟨hawaits, h.injects, h.mixed.develops hdevelops fun _ => hexpanded⟩,
      continues_of_develops hdevelops p.inferences⟩
  | false =>
    rw [hexpanded, h.awaits.path_eq_nil hexpanded] at ok
    cases ok
    -- The root was not expanded, so the tree was given all its priors in this step.
    have hgiven : tree.AllGiven said := by
      intro path s' hs'
      refine (hdevelops path).isGiven (fun s hs => ?_) hs'
      cases path with
      | nil =>
        cases hs
        exact .of_unexpanded hexpanded
      | cons i path => exact h.mixed.others (i :: path) s nofun hs
    have hmixed := mixedOnce_mixNoise (p := { p with tree }) h.injects hgiven
    obtain ⟨bs, state, heq⟩ := mixNoise_eq { p with tree }
    refine ⟨⟨hawaits, ?_, hmixed⟩, ?_, ?_, fun hwas => ?_⟩
    · rw [heq]
      exact h.injects
    · rw [heq]
    · rw [heq]
    · rw [hexpanded] at hwas
      cases hwas

theorem Noised.absorbAll {es : List Evaluation} (h : p.Noised said root leaves)
    (hlength : es.length = leaves.length) (hsize : ∀ e ∈ es, e.policy.length = policySize)
    (hsaid : List.Forall₂ said (leaves.map (·.position)) es) (ok : p.absorbAll leaves es = .ok p') :
    p'.Noised said root [] ∧ p.Continues p' := by
  induction leaves generalizing p es with
  | nil =>
    cases ok
    exact ⟨h, .refl _⟩
  | cons leaf leaves ih =>
    cases hsaid with
    | @cons _ e _ es hfirst hrest =>
      obtain ⟨p₁, habsorb, ok⟩ := bind_eq_ok ok
      obtain ⟨h₁, hcontinues⟩ := h.absorb (hsize e List.mem_cons_self) hfirst habsorb
      obtain ⟨h', hcontinues'⟩ := ih h₁ (Nat.succ.inj hlength)
        (fun e he => hsize e (List.mem_cons_of_mem _ he)) hrest ok
      exact ⟨h', hcontinues.trans hcontinues'⟩

/-- A step of the search mixes noise in if it expands the root, and not if the root was expanded. -/
theorem Noised.search (h : p.Noised said root [])
    (hasks : p.search.Asks (Evaluation.Said said) asked p') :
    p'.Noised said root [] ∧ p.Continues p' := by
  obtain ⟨leaves, tree, hgather, hrest⟩ := of_search hasks
  obtain ⟨leaves', tree', hgather', hgathered, hextends, -⟩ :=
    h.awaits.gathered.grown.exists_gather p.options p.options.virtualLosses h.awaits.known
  cases hgather.symm.trans hgather'
  have hdevelops : p.tree.Develops said tree :=
    h.awaits.gathered.grown.develops_gather h.awaits.known hgather
  have hleaf : tree.top.expanded = true → p.tree.top.expanded = true := by
    obtain ⟨s', hs', hexpanded, -⟩ := hextends [] p.tree rfl
    cases hs'
    exact fun htop => hexpanded.symm.trans htop
  have hgathers (count : Nat) :
      ({ p with tree, inferences := count } : Player).Noised said root leaves ∧
        p.Continues { p with tree, inferences := count } := by
    have hmixed := h.mixed.develops hdevelops hleaf
    exact ⟨⟨⟨h.awaits.valid, hgathered, hextends.position_eq h.awaits.known⟩, h.injects,
      ⟨hmixed.root, hmixed.few, hmixed.others⟩⟩, continues_of_develops hdevelops count⟩
  rcases hrest with ⟨rfl, -, rfl⟩ | ⟨-, -, answers, hfits, hlength, habsorb⟩
  · exact hgathers p.inferences
  · obtain ⟨hbefore, hcontinues⟩ := hgathers (p.inferences + leaves.length)
    obtain ⟨hafter, hcontinues'⟩ := hbefore.absorbAll hlength hfits.1.2 hfits.2 habsorb
    exact ⟨hafter, hcontinues.trans hcontinues'⟩

theorem Noised.searchUntil {target steps : Nat} (h : p.Noised said root [])
    (hasks : (Player.searchUntil target steps p).Asks (Evaluation.Said said) asked p') :
    p'.Noised said root [] ∧ p.Continues p' := by
  induction steps generalizing p asked with
  | zero =>
    cases hasks
    exact ⟨h, .refl _⟩
  | succ steps ih =>
    rw [Player.searchUntil] at hasks
    split at hasks
    · obtain ⟨p₁, before, after, hsearch, hrest, -⟩ := hasks.bind
      obtain ⟨h₁, hcontinues⟩ := h.search hsearch
      obtain ⟨h', hcontinues'⟩ := ih h₁ hrest
      exact ⟨h', hcontinues.trans hcontinues'⟩
    · cases hasks
      exact ⟨h, .refl _⟩

/-- A suggestion mixes noise in if it expands the root, and not if the root was expanded. -/
theorem Noised.suggest {g : Game} {readouts : Nat} (h : p.Noised said root [])
    (hasks : (p.suggest g readouts).Asks (Evaluation.Said said) asked (m, p')) :
    p'.Noised said root [] ∧ p.Continues p' := by
  obtain ⟨p₁, first, rest, hfirst, hrest, -⟩ := asks_of_suggest hasks
  have hbegins : p₁.Noised said root [] ∧ p.Continues p₁ := by
    split at hfirst
    · cases hfirst
      exact ⟨h, .refl _⟩
    · exact h.search hfirst
  obtain ⟨h', hcontinues'⟩ := hbegins.1.searchUntil hrest
  exact ⟨h', hbegins.2.trans hcontinues'⟩

/-- Noise is mixed in when an expanded node becomes the root. -/
theorem mixedOnce_descend (hinjects : Injects p.options p.noise) (h : below.AllGiven said)
    (hknown : ∀ known, below.top.position = some known → known = position) :
    (p.descend below position).MixedOnce said := by
  have hgiven := (h.know hknown).reverse
  rw [descend_eq]
  split
  · exact mixedOnce_mixNoise (p := { p with tree := (below.know position).reverse }) hinjects hgiven
  · rename_i hleaf
    refine .of_unexpanded hgiven ?_
    rw [Tree.top_reverse, Tree.top_know]
    exact (Bool.not_eq_true _).mp hleaf

theorem Noised.advance (h : p.Noised said root []) (hadvance : p.advance m = .ok p') :
    ∃ next, p'.Noised said next [] ∧ p'.options = p.options ∧ p'.noise = p.noise := by
  obtain ⟨next, hplay, hawaits, -⟩ := h.awaits.advanced hadvance
  refine ⟨next, ?_⟩
  rcases advance_cases hadvance with ⟨found, below, position, hfind, hposition, rfl⟩ |
    ⟨-, position, -, -, rfl⟩
  · obtain ⟨hbranch, -, next', hplay', hknown⟩ := h.awaits.branch hfind
    obtain rfl : next = next' := Except.ok.inj (hplay.symm.trans hplay')
    rw [positionAfter_eq h.awaits.known hplay hknown] at hposition
    obtain rfl := Except.ok.inj hposition
    have hmixed := mixedOnce_descend h.injects (h.mixed.branch hbranch) hknown
    rw [descend_eq_drawn] at hawaits hmixed ⊢
    exact ⟨⟨hawaits, h.injects, hmixed⟩, rfl, rfl⟩
  · exact ⟨⟨hawaits, h.injects, .of_unexpanded (.root position) rfl⟩, rfl, rfl⟩

/-! ## Whole runs -/

/-- The players with some options that come out of calls from a start, made or refused, with answers
that may be said. -/
inductive Informed (said : Position → Evaluation → Prop) (options : PlayerOptions)
    (noise : NoiseSource) (start : Position) : Player → Prop where
  | new {modelName : String} {p : Player} (h : Player.new modelName options noise start = .ok p) :
      Informed said options noise start p
  | suggest {p p' : Player} {g : Game} {readouts : Nat} {m : Move}
      (h : Informed said options noise start p)
      (hgives : (p.suggest g readouts).Gives (Evaluation.Said said) (m, p')) :
      Informed said options noise start p'
  | play {p : Player} (g : Game) (m : Move) (h : Informed said options noise start p) :
      Informed said options noise start ((playMove m).after (g, p)).2
  | follow {p : Player} (m : Move) (h : Informed said options noise start p) :
      Informed said options noise start ((followMove m).after p)

/-- Noise is kept by a call that leaves the player as it was, or advanced. -/
theorem Noised.after (h : p.Noised said root []) (hafter : p' = p ∨ p.advance m = .ok p') :
    ∃ next, p'.Noised said next [] ∧ p'.options = p.options ∧ p'.noise = p.noise := by
  rcases hafter with rfl | hadvance
  · exact ⟨root, h, rfl, rfl⟩
  · exact h.advance hadvance

theorem Informed.noised (h : Informed said options noise start p)
    (hinjects : Injects options noise) :
    (∃ root, p.Noised said root []) ∧ p.options = options ∧ p.noise = noise := by
  induction h with
  | new h =>
    have hawaits := Awaits.new h
    unfold Player.new at h
    split at h
    · cases h
      exact ⟨⟨start, hawaits, hinjects, .of_unexpanded (.root start) rfl⟩, rfl, rfl⟩
    · cases h
  | suggest _ hgives ih =>
    obtain ⟨⟨root, h⟩, hoptions, hnoise⟩ := ih
    obtain ⟨asked, hasks⟩ := hgives.exists_asks
    obtain ⟨h', hcontinues⟩ := h.suggest hasks
    exact ⟨⟨root, h'⟩, hcontinues.options.trans hoptions, hcontinues.noise.trans hnoise⟩
  | play g m _ ih =>
    obtain ⟨⟨root, h⟩, hoptions, hnoise⟩ := ih
    obtain ⟨next, h', hoptions', hnoise'⟩ := h.after (after_playMove m g _)
    exact ⟨⟨next, h'⟩, hoptions'.trans hoptions, hnoise'.trans hnoise⟩
  | follow m _ ih =>
    obtain ⟨⟨root, h⟩, hoptions, hnoise⟩ := ih
    obtain ⟨next, h', hoptions', hnoise'⟩ := h.after (after_followMove m _)
    exact ⟨⟨next, h'⟩, hoptions'.trans hoptions, hnoise'.trans hnoise⟩

/-- Whatever a model answers and whatever calls are made, noise is mixed once into the priors below
a root that was expanded and has two branches or more, and into no others: between the calls each
prior below the root is the one that it was given, mixed with its share of one draw, and all others
are those that they were given. No later suggestion draws noise for that root or changes a prior
below it. -/
theorem Informed.mixed_once (h : Informed said options noise start p)
    (hinjects : Injects options noise) :
    p.options = options ∧ p.noise = noise ∧ p.MixedOnce said ∧
    ∀ g readouts m p', (p.suggest g readouts).Gives (Evaluation.Said said) (m, p') →
      p.tree.top.expanded = true → p'.tree.odds = p.tree.odds ∧ p'.noiseState = p.noiseState := by
  obtain ⟨⟨root, hnoised⟩, hoptions, hnoise⟩ := h.noised hinjects
  refine ⟨hoptions, hnoise, hnoised.mixed, fun g readouts m p' hgives hexpanded => ?_⟩
  obtain ⟨asked, hasks⟩ := hgives.exists_asks
  exact ((hnoised.suggest hasks).2.root hexpanded).2

/-- The usual options, with noise. -/
def noisy : PlayerOptions := { PlayerOptions.usual with injectNoise := true }

theorem injects_noisy : Injects noisy Noise.dirichlet :=
  ⟨rfl, by decide, by decide, Noise.length_dirichlet⟩

/-- A suggestion in a position that is not over leaves the root expanded. -/
theorem Awaits.expanded_of_suggest {g : Game} {readouts : Nat} (h : p.Awaits root [])
    (hover : root.isOver = false)
    (hasks : (p.suggest g readouts).Asks Evaluation.RightSized asked (m, p')) :
    p'.Awaits root [] ∧ p'.tree.top.expanded = true := by
  obtain ⟨p₁, first, rest, hfirst, hrest, -⟩ := asks_of_suggest hasks
  have hbegins : p₁.Awaits root [] ∧ p₁.tree.top.expanded = true := by
    split at hfirst
    · rename_i hexpanded
      cases hfirst
      exact ⟨h, hexpanded⟩
    · obtain ⟨h₁, hexpanded, -⟩ := h.search.of_asks hfirst
      exact ⟨h₁, hexpanded hover⟩
  exact (hbegins.1.searchUntil hover hbegins.2 _ _).of_gives hrest.gives

/-- What a model says that prefers no move and no side. -/
def Indifferent (_ : Position) (e : Evaluation) : Prop :=
  e = ⟨List.replicate policySize .zero, .zero⟩

/-- A new player in the first position of a game, after its first suggestion. -/
theorem mixed_once_after_suggestion : ∃ p m p',
    Player.new "uniform" noisy Noise.dirichlet (.initial GameOptions.usualKomi) = .ok p ∧
      (p.suggest (.new "black" "white" .usual) 8).Gives (Evaluation.Said Indifferent) (m, p') ∧
      p'.MixedOnce Indifferent ∧ p'.tree.top.expanded = true ∧ p'.tree.branches.length = 82 := by
  obtain ⟨p, hnew⟩ := Player.exists_new "uniform" noisy Noise.dirichlet
    (.initial GameOptions.usualKomi) (by decide)
  have hagrees : (Game.new "black" "white" .usual).position.agrees
      (.initial GameOptions.usualKomi) = true := by decide
  have hawaits := Awaits.new hnew
  have halways : (p.suggest (.new "black" "white" .usual) 8).Always
      (Evaluation.Said Indifferent) _ :=
    (hawaits.suggest rfl hagrees 8).of_fewer fun _ _ h => h.1
  have hsaid (position : Position) :
      ∃ e : Evaluation, e.policy.length = policySize ∧ Indifferent position e :=
    ⟨_, List.length_replicate, rfl⟩
  obtain ⟨⟨m, p'⟩, hgives⟩ := halways.exists_gives (Evaluation.exists_said hsaid)
  obtain ⟨asked, hasks⟩ := hgives.exists_asks
  obtain ⟨hawaits', hexpanded⟩ := hawaits.expanded_of_suggest rfl (hasks.mono fun _ _ h => h.1)
  have hmixed := (((Informed.new hnew).suggest hgives).mixed_once injects_noisy).2.2.1
  refine ⟨p, m, p', hnew, hgives, hmixed, hexpanded, ?_⟩
  obtain ⟨pos, hpos, -, hmoves⟩ := hawaits'.gathered.grown.sound.full hexpanded
  obtain rfl := Option.some.inj (hpos.symm.trans hawaits'.known)
  have hcount : (Position.initial GameOptions.usualKomi).legalMoves.length = 82 := by decide +kernel
  rw [← hcount, ← hmoves.length_eq, List.length_map]

end Player

end Goban
