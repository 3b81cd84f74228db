import Goban.Proofs.Search.Lines
import Goban.Proofs.Search.Steady
import Goban.Proofs.Search.Visits

/-!
# The accounts of a player

Over the calls of a player (`Player.Called`) visits are conserved at every node of its tree, and its
model is asked about every node once at most, never about a finished position, and as often as the
player counts. A suggestion is several steps of the search (`Player.Course.suggest`), so that calls
are searches and moves one after the other (`Player.Course`). Along these the nodes that were sent
are told by their moves from the start, which outlast the trees they were in: what was sent and lies
below the root was explored (`Player.Kept.explored`), and what a search sends next was not.
-/

namespace Goban

namespace Player

variable {start root : Position} {p p' : Player} {line : List Move} {sent : List (List Move)}
  {asked more : List (List Position)} {m : Move}

/-- The moves from the root to the nodes that the next step of the search sends to the model. -/
def nextLines (p : Player) : List (List Move) :=
  match p.tree.gather p.options p.options.virtualLosses [] with
  | .ok (leaves, tree) => leaves.map fun leaf => tree.moves leaf.path
  | .error _ => []

/-- The players that come out of calls from a start, with what their model was asked. Any move may be
made in any game or followed; if it is refused, the player goes on from where the call left off. -/
inductive Called (start : Position) : Player → List (List Position) → Prop where
  | new {modelName : String} {options : PlayerOptions} {noise : NoiseSource} {p : Player}
      (h : Player.new modelName options noise start = .ok p) : Called start p []
  | suggest {p p' : Player} {asked more : List (List Position)} {g : Game} {readouts : Nat}
      {m : Move} (h : Called start p asked)
      (hasks : (p.suggest g readouts).Asks Evaluation.RightSized more (m, p')) :
      Called start p' (asked ++ more)
  | play {p : Player} {asked : List (List Position)} (g : Game) (m : Move)
      (h : Called start p asked) : Called start ((playMove m).after (g, p)).2 asked
  | follow {p : Player} {asked : List (List Position)} (m : Move) (h : Called start p asked) :
      Called start ((followMove m).after p) asked

/-- What a player does in its calls, step by step, with the moves from the start to its root and to
every node that was sent to the model. -/
inductive Course (start : Position) :
    Player → List Move → List (List Move) → List (List Position) → Prop where
  | new {modelName : String} {options : PlayerOptions} {noise : NoiseSource} {p : Player}
      (h : Player.new modelName options noise start = .ok p) : Course start p [] [] []
  | search {p p' : Player} {line : List Move} {sent : List (List Move)}
      {asked more : List (List Position)} (h : Course start p line sent asked)
      (hasks : p.search.Asks Evaluation.RightSized more p') :
      Course start p' line (sent ++ p.nextLines.map (line ++ ·)) (asked ++ more)
  | advance {p p' : Player} {line : List Move} {sent : List (List Move)}
      {asked : List (List Position)} {m : Move} (h : Course start p line sent asked)
      (hadvance : p.advance m = .ok p') : Course start p' (line ++ [m]) sent asked

/-! ## Calls are searches and moves -/

section Suggest

variable {fits : List Position → List Evaluation → Prop} {g : Game} {readouts : Nat}

theorem conclude_asks (hasks : (conclude g p).Asks fits more (m, p')) : p' = p ∧ more = [] := by
  unfold conclude at hasks
  split at hasks
  · cases hasks
    exact ⟨rfl, rfl⟩
  · split at hasks <;> cases hasks
    exact ⟨rfl, rfl⟩

/-- All that a suggestion asks it asks in its searches; then it chooses. -/
theorem asks_of_suggest (hasks : (p.suggest g readouts).Asks fits more (m, p')) :
    ∃ p₁ first rest, (if p.tree.top.expanded then pure p else p.search).Asks fits first p₁ ∧
      (Player.searchUntil (p₁.visits + readouts) readouts p₁).Asks fits rest p' ∧
        more = first ++ rest ∧ (conclude g p').Asks fits [] (m, p') := by
  by_cases hstep : (p.position?.any g.position.agrees) = true
  · rw [suggest_eq p hstep] at hasks
    obtain ⟨p₁, first, rest, hfirst, hrest, rfl⟩ := hasks.bind
    obtain ⟨p₂, further, last, hfurther, hlast, rfl⟩ := hrest.bind
    obtain ⟨rfl, rfl⟩ := conclude_asks hlast
    rw [List.append_nil]
    exact ⟨p₁, first, further, hfirst, hfurther, rfl, hlast⟩
  · unfold Player.suggest at hasks
    rw [(Bool.not_eq_true _).mp hstep] at hasks
    cases hasks

end Suggest

namespace Course

theorem searchUntil {target steps : Nat} (h : Course start p line sent asked)
    (hasks : (Player.searchUntil target steps p).Asks Evaluation.RightSized more p') :
    ∃ sent', Course start p' line sent' (asked ++ more) := by
  induction steps generalizing p sent asked more with
  | zero =>
    cases hasks
    rw [List.append_nil]
    exact ⟨sent, h⟩
  | succ steps ih =>
    rw [Player.searchUntil] at hasks
    split at hasks
    · obtain ⟨p₁, before, after, hsearch, hrest, rfl⟩ := hasks.bind
      rw [← List.append_assoc]
      exact ih (h.search hsearch) hrest
    · cases hasks
      rw [List.append_nil]
      exact ⟨sent, h⟩

/-- A suggestion is several steps of the search. -/
theorem suggest {g : Game} {readouts : Nat} (h : Course start p line sent asked)
    (hasks : (p.suggest g readouts).Asks Evaluation.RightSized more (m, p')) :
    ∃ sent', Course start p' line sent' (asked ++ more) := by
  obtain ⟨p₁, first, rest, hfirst, hrest, rfl, -⟩ := asks_of_suggest hasks
  have hroot : ∃ sent', Course start p₁ line sent' (asked ++ first) := by
    split at hfirst
    · cases hfirst
      rw [List.append_nil]
      exact ⟨sent, h⟩
    · exact ⟨_, h.search hfirst⟩
  obtain ⟨sent', h₁⟩ := hroot
  rw [← List.append_assoc]
  exact h₁.searchUntil hrest

/-- A call that is refused is no move. -/
theorem after_call (h : Course start p line sent asked) (hcall : p' = p ∨ p.advance m = .ok p') :
    ∃ line', Course start p' line' sent asked := by
  rcases hcall with rfl | hadvance
  · exact ⟨line, h⟩
  · exact ⟨_, h.advance hadvance⟩

end Course

theorem Called.course (h : Called start p asked) : ∃ line sent, Course start p line sent asked := by
  induction h with
  | new h => exact ⟨[], [], .new h⟩
  | suggest _ hasks ih =>
    obtain ⟨line, sent, h⟩ := ih
    exact ⟨line, h.suggest hasks⟩
  | play g m _ ih =>
    obtain ⟨line, sent, h⟩ := ih
    obtain ⟨line', h'⟩ := h.after_call (after_playMove m g _)
    exact ⟨line', sent, h'⟩
  | follow m _ ih =>
    obtain ⟨line, sent, h⟩ := ih
    obtain ⟨line', h'⟩ := h.after_call (after_followMove m _)
    exact ⟨line', sent, h'⟩

/-! ## What every step keeps -/

/-- What holds between the steps of a player. -/
structure Kept (start : Position) (p : Player) (line : List Move) (sent : List (List Move))
    (asked : List (List Position)) : Prop where
  awaits : ∃ root, start.playAll line = .ok root ∧ p.Awaits root []
  balanced : p.tree.Balanced
  /-- The nodes below the root that were sent were explored. -/
  explored : ∀ rest, line ++ rest ∈ sent → p.tree.Explored rest
  once : sent.Nodup
  leads : List.Forall₂ (fun moves pos => start.playAll moves = .ok pos) sent asked.flatten
  unfinished : ∀ pos ∈ asked.flatten, pos.isOver = false
  inferences : p.inferences = asked.flatten.length

theorem Sends.nextLines {leaves : List Tree.Leaf} {tree : Tree}
    (h : p.Sends leaves tree asked p') :
    p.nextLines = leaves.map fun leaf => tree.moves leaf.path := by
  unfold Player.nextLines
  rw [h.gather]

namespace Kept

theorem new {modelName : String} {options : PlayerOptions} {noise : NoiseSource}
    (h : Player.new modelName options noise start = .ok p) : Kept start p [] [] [] := by
  have hawaits := Awaits.new h
  unfold Player.new at h
  split at h
  · cases h
    exact ⟨⟨start, rfl, hawaits⟩, .root start, fun _ hrest => absurd hrest List.not_mem_nil,
      List.nodup_nil, .nil, fun _ hpos => absurd hpos List.not_mem_nil, rfl⟩
  · cases h

/-- A step of the search sends nodes that were not sent before. -/
theorem search (h : Kept start p line sent asked)
    (hasks : p.search.Asks Evaluation.RightSized more p') :
    Kept start p' line (sent ++ p.nextLines.map (line ++ ·)) (asked ++ more) := by
  obtain ⟨root, hroot, hawaits⟩ := h.awaits
  obtain ⟨hawaits', -, leaves, tree, hsends⟩ := hawaits.search.of_asks hasks
  have hgathered := hsends.gathered
  have hflatten : (asked ++ more).flatten = asked.flatten ++ leaves.map (·.position) := by
    rw [List.flatten_append, hsends.asked]
  rw [hsends.nextLines, List.map_map]
  refine ⟨⟨root, hroot, hawaits'⟩, hsends.after.balanced (hsends.before.balanced h.balanced), ?_,
    ?_, ?_, ?_, ?_⟩
  · intro rest hrest
    rcases List.mem_append.mp hrest with hold | hnew
    · exact ((h.explored rest hold).of_keeps hsends.before.keeps).of_keeps hsends.after.keeps
    · obtain ⟨leaf, hleaf, hline⟩ := List.mem_map.mp hnew
      obtain ⟨-, s, hs, -⟩ := hgathered.waits leaf hleaf
      rw [← List.append_cancel_left hline]
      exact ⟨leaf.path, hsends.expanded leaf hleaf, hsends.after.keeps.moves_eq hs⟩
  · refine List.nodup_append.mpr ⟨h.once, hgathered.nodup_moves line, ?_⟩
    · rintro moves hold moves' hnew rfl
      obtain ⟨leaf, hleaf, rfl⟩ := List.mem_map.mp hnew
      exact hgathered.not_explored hleaf ((h.explored _ hold).of_keeps hsends.before.keeps)
  · rw [hflatten]
    refine List.rel_append h.leads ?_
    rw [List.forall₂_map_left_iff, List.forall₂_map_right_iff, List.forall₂_same]
    intro leaf hleaf
    obtain ⟨-, s, hs, hposition, -⟩ := hgathered.waits leaf hleaf
    show start.playAll (line ++ tree.moves leaf.path) = .ok leaf.position
    rw [Position.playAll_append hroot]
    exact hgathered.grown.playAll_moves (hsends.known.position_eq hawaits.known) hs hposition
  · rw [hflatten]
    intro pos hpos
    rcases List.mem_append.mp hpos with hold | hnew
    · exact h.unfinished pos hold
    · obtain ⟨leaf, hleaf, rfl⟩ := List.mem_map.mp hnew
      exact (hgathered.waits leaf hleaf).1
  · rw [hflatten, List.length_append, List.length_map, hsends.inferences, h.inferences]

/-- A move leaves below the root what was sent after it. -/
theorem advance (h : Kept start p line sent asked) (hadvance : p.advance m = .ok p') :
    Kept start p' (line ++ [m]) sent asked := by
  obtain ⟨root, hroot, hawaits⟩ := h.awaits
  obtain ⟨next, hplay, hawaits', hfollows⟩ := hawaits.advanced hadvance
  refine ⟨⟨next, Position.playAll_concat hroot hplay, hawaits'⟩, ?_, ?_, h.once, h.leads,
    h.unfinished, ?_⟩
  · cases hfollows with
    | branch hbranch hknown hchanges =>
      exact hchanges.balanced ((h.balanced.of_branch hbranch).know hknown).reverse
    | fresh _ htree =>
      rw [htree]
      exact .root next
  · intro rest hrest
    rw [List.append_assoc] at hrest
    obtain ⟨⟨below, hmem⟩, hbelow⟩ := (h.explored _ hrest).branch hawaits.gathered.grown
    cases hfollows with
    | @branch below' _ hbranch _ hchanges =>
      have hnext : (below'.know next).Explored rest :=
        (hbelow _ hbranch).of_keeps (.know next below')
      exact hnext.reverse.of_keeps hchanges.keeps
    | fresh hnone => exact absurd rfl (hnone _ hmem)
  · cases hfollows with
    | branch _ _ _ hcount => exact hcount.trans h.inferences
    | fresh _ _ hcount => exact hcount.trans h.inferences

end Kept

theorem Course.kept (h : Course start p line sent asked) : Kept start p line sent asked := by
  induction h with
  | new h => exact .new h
  | search _ hasks ih => exact ih.search hasks
  | advance _ hadvance ih => exact ih.advance hadvance

/-! ## Calls that meet a fault -/

/-- A search from a finished position asks nothing. -/
theorem Awaits.search_of_over (h : p.Awaits root []) (hover : root.isOver = true) :
    ∃ p', p.search = .done p' ∧ p'.Awaits root [] := by
  obtain ⟨leaves, tree, hgather, hgathered, hextends, -⟩ :=
    h.gathered.grown.exists_gather p.options p.options.virtualLosses h.known
  have hroot := hextends.position_eq h.known
  obtain rfl := hgathered.eq_nil_of_over hroot hover
  refine ⟨{ p with tree }, ?_, h.valid, hgathered, hroot⟩
  unfold Player.search
  rw [hgather]
  rfl

theorem Awaits.searchUntil_of_over (h : p.Awaits root []) (hover : root.isOver = true)
    (target steps : Nat) : ∃ p', Player.searchUntil target steps p = .done p' := by
  induction steps generalizing p with
  | zero => exact ⟨p, rfl⟩
  | succ steps ih =>
    rw [Player.searchUntil]
    split
    · obtain ⟨p₁, hsearch, h₁⟩ := h.search_of_over hover
      rw [hsearch]
      exact ih h₁
    · exact ⟨p, rfl⟩

theorem Awaits.suggest_of_over {g : Game} (h : p.Awaits root []) (hover : root.isOver = true)
    (hstep : (p.position?.any g.position.agrees) = true) (readouts : Nat) :
    ∃ p', p.suggest g readouts = Player.conclude g p' := by
  have hfirst : ∃ p₁, (if p.tree.top.expanded then pure p else p.search) = Inquiry.done p₁ ∧
      p₁.Awaits root [] := by
    split
    · exact ⟨p, rfl, h⟩
    · exact h.search_of_over hover
  obtain ⟨p₁, hdone, h₁⟩ := hfirst
  obtain ⟨p₂, huntil⟩ := h₁.searchUntil_of_over hover (p₁.visits + readouts) readouts
  rw [suggest_eq p hstep, hdone]
  refine ⟨p₂, ?_⟩
  show Player.searchUntil _ _ p₁ >>= Player.conclude g = Player.conclude g p₂
  rw [huntil]
  rfl

/-- A suggestion that meets a fault has asked nothing. -/
theorem Awaits.silent (h : p.Awaits root []) {reply : List Position → List Evaluation}
    (hreply : ∀ positions, Evaluation.RightSized positions (reply positions)) {g : Game}
    {readouts : Nat} {fault : Fault}
    (hfault : ((p.suggest g readouts).answer reply).2 = .error fault) :
    ((p.suggest g readouts).answer reply).1 = [] := by
  by_cases hstep : (p.position?.any g.position.agrees) = true
  · have hagrees : g.position.agrees root = true := by
      rwa [h.known] at hstep
    cases hover : root.isOver with
    | true =>
      obtain ⟨p', hconclude⟩ := h.suggest_of_over hover hstep readouts
      rw [hconclude, Player.conclude]
      split
      · rfl
      · split <;> rfl
    | false =>
      obtain ⟨suggestion, hok, -⟩ := (h.suggest hover hagrees readouts).answer hreply
      rw [hok] at hfault
      cases hfault
  · unfold Player.suggest
    rw [(Bool.not_eq_true _).mp hstep]
    rfl

/-! ## The accounts -/

/-- What a player and its model have done between two calls. -/
structure InBalance (start : Position) (p : Player) (asked : List (List Position)) : Prop where
  /-- An expanded node has one visit more than the nodes below it, any other has none unless its
  position is over. -/
  tallied : ∀ path s, p.tree.at? path = some s → s.Tallied
  /-- No finished position was sent. -/
  unfinished : ∀ pos ∈ asked.flatten, pos.isOver = false
  inferences : p.inferences = asked.flatten.length
  /-- The calls were searches and moves one after the other. -/
  course : ∃ line sent, Course start p line sent asked
  /-- No node was sent twice, and for each of them its position was. -/
  once : ∀ line sent, Course start p line sent asked → sent.Nodup ∧
    List.Forall₂ (fun moves pos => start.playAll moves = .ok pos) sent asked.flatten
  /-- Nothing was sent besides: a suggestion that meets a fault asks nothing. -/
  silent : ∀ reply g readouts fault,
    (∀ positions, Evaluation.RightSized positions (reply positions)) →
      ((p.suggest g readouts).answer reply).2 = .error fault →
        ((p.suggest g readouts).answer reply).1 = []

/-- Whatever a model answers and whatever calls are made, the accounts of the player balance between
the calls. -/
theorem Called.in_balance (h : Called start p asked) : InBalance start p asked := by
  obtain ⟨line, sent, hcourse⟩ := h.course
  have hkept := hcourse.kept
  obtain ⟨root, -, hawaits⟩ := hkept.awaits
  exact ⟨fun _ _ hs => (hkept.balanced.at_path hs).tallied, hkept.unfinished, hkept.inferences,
    ⟨line, sent, hcourse⟩, fun _ _ h => ⟨h.kept.once, h.kept.leads⟩,
    fun _ _ _ _ hreply hfault => hawaits.silent hreply hfault⟩

/-- A new player in the first position of a game, after its first suggestion. -/
theorem in_balance_after_suggestion : ∃ p m p' asked,
    Player.new "uniform" .usual Noise.dirichlet (.initial GameOptions.usualKomi) = .ok p ∧
      (p.suggest (.new "black" "white" .usual) 8).Asks Evaluation.RightSized asked (m, p') ∧
        InBalance (.initial GameOptions.usualKomi) p' asked := by
  obtain ⟨p, hnew⟩ := Player.exists_new "uniform" .usual Noise.dirichlet
    (.initial GameOptions.usualKomi) (by decide)
  have hagrees : (Game.new "black" "white" .usual).position.agrees
      (.initial GameOptions.usualKomi) = true := by decide
  obtain ⟨⟨m, p'⟩, hgives⟩ := ((Awaits.new hnew).suggest rfl hagrees 8).exists_gives
    fun positions =>
      ⟨List.replicate positions.length ⟨List.replicate policySize .zero, .zero⟩, by simp, by simp⟩
  obtain ⟨asked, hasks⟩ := hgives.exists_asks
  exact ⟨p, m, p', asked, hnew, hasks, ((Called.new hnew).suggest hasks).in_balance⟩

end Player

end Goban
