import Goban.Proofs.Game.Faithful
import Goban.Proofs.Search.Copies
import Goban.Search.Player

/-!
# Calls that follow the game

Each call is worked out once for what it does to its state, whether it comes to its end or not
(`Player.run_moveRoot`, `Player.run_playMove`); it leaves the player as it was, or advanced
(`Player.after_playMove`, `Player.after_followMove`). A move of a branch makes the tree below it,
reversed, the tree of the player (`Player.advance_of_branch`); any other move starts a new tree
(`Player.advance_of_none`).
-/

namespace Goban

namespace Player

variable {p p' : Player} {g g' : Game} {m found : Move} {below : Tree} {root position : Position}

theorem run_moveRoot (m : Move) (p : Player) : (moveRoot m).run p =
    match p.tree.branches.find? (·.1 == m) with
    | some (_, below) =>
      match p.positionAfter m below with
      | .ok position => .ok () (p.descend below position)
      | .error fault => .error (.broken fault) p
    | none =>
      match p.rootPosition with
      | .ok root =>
        match root.play m with
        | .ok position => .ok () { p with tree := .root position }
        | .error reason => .error (.refused reason) p
      | .error fault => .error (.broken fault) p := by
  unfold moveRoot
  simp only [EStateM.run_bind, EStateM.run_get]
  cases p.tree.branches.find? (·.1 == m) with
  | some b =>
    simp only [EStateM.run_bind]
    cases p.positionAfter m b.2 <;> rfl
  | none =>
    cases p.rootPosition with
    | error fault => rfl
    | ok root =>
      show EStateM.run (Call.allow (root.play m) >>= _) p = _
      simp only [EStateM.run_bind]
      cases root.play m <;> rfl

theorem run_playMove (m : Move) (g : Game) (p : Player) : (playMove m).run (g, p) =
    match g.add m p.comment with
    | .error reason => .error (.refused reason) (g, p)
    | .ok g =>
      if m = .resign then .ok () (g, p)
      else
        match (moveRoot m).run p with
        | .ok _ p => .ok () (g, p)
        | .error setback p => .error setback (g, p) := by
  unfold playMove
  simp only [EStateM.run_bind, EStateM.run_get]
  rw [Call.run_adaptExcept, Call.run_within, Game.run_makeMove, ← Game.add_eq]
  cases g.add m p.comment with
  | error reason => rfl
  | ok g =>
    by_cases hresign : m = .resign
    · subst hresign
      rfl
    · show EStateM.run (if m ≠ .resign then Call.within Prod.snd _ (moveRoot m) else pure ()) (g, p)
        = _
      rw [if_pos hresign, Call.run_within]
      simp only [if_neg hresign]
      cases (moveRoot m).run p <;> rfl

theorem play_eq (m : Move) : p.play g m =
    match g.add m p.comment with
    | .error reason => (g, .error (.refused reason))
    | .ok g => (g, if m = .resign then .ok p else p.advance m) := by
  unfold play advance Call.outcome
  rw [run_playMove]
  cases g.add m p.comment with
  | error reason => rfl
  | ok g =>
    by_cases hresign : m = .resign
    · simp only [if_pos hresign]
    · simp only [if_neg hresign]
      cases (moveRoot m).run p <;> rfl

theorem follow_eq (m : Move) :
    p.follow m = if m = .resign then .error (.refused .resign) else p.advance m := by
  unfold follow followMove advance
  by_cases hresign : m = .resign
  · rw [if_pos hresign, if_pos hresign]
    rfl
  · rw [if_neg hresign, if_neg hresign]

/-- A root that is not moved stays as it is. -/
theorem eq_of_run_moveRoot_error {setback : Setback}
    (h : (moveRoot m).run p = .error setback p') : p' = p := by
  rw [run_moveRoot] at h
  split at h
  · split at h <;> cases h
    rfl
  · split at h
    · split at h <;> cases h
      rfl
    · cases h
      rfl

theorem after_moveRoot (m : Move) (p : Player) :
    (moveRoot m).after p = p ∨ p.advance m = .ok ((moveRoot m).after p) := by
  unfold Call.after
  cases hrun : (moveRoot m).run p with
  | ok u p' => exact .inr (Call.outcome_eq_ok_iff.mpr hrun)
  | error setback p' => exact .inl (eq_of_run_moveRoot_error hrun)

/-- A call that follows a move leaves the player as it was, or advanced. -/
theorem after_followMove (m : Move) (p : Player) :
    (followMove m).after p = p ∨ p.advance m = .ok ((followMove m).after p) := by
  unfold followMove
  split
  · exact .inl rfl
  · exact after_moveRoot m p

/-- So does a call that makes a move, whatever becomes of the game. -/
theorem after_playMove (m : Move) (g : Game) (p : Player) :
    ((playMove m).after (g, p)).2 = p ∨ p.advance m = .ok ((playMove m).after (g, p)).2 := by
  have hafter := after_moveRoot m p
  unfold Call.after at hafter ⊢
  rw [run_playMove]
  cases g.add m p.comment with
  | error reason => exact .inl rfl
  | ok g =>
    by_cases hresign : m = .resign
    · subst hresign
      exact .inl rfl
    · simp only [if_neg hresign]
      cases hrun : (moveRoot m).run p <;> rw [hrun] at hafter <;> exact hafter

/-- The player whose tree is one that was below the root. -/
theorem descend_eq (p : Player) (below : Tree) (position : Position) : p.descend below position =
    if below.top.expanded then
      mixNoise { p with tree := (below.know position).reverse }
    else { p with tree := (below.know position).reverse } := by
  rw [descend, Tree.transplant_eq_reverse]

/-- Noise changes the branches of the root and the state of its source. -/
theorem mixNoise_eq (p : Player) :
    ∃ bs state, p.mixNoise = { p with tree := .node p.tree.top bs, noiseState := state } := by
  obtain ⟨modelName, options, noise, noiseState, ⟨n, bs⟩, inferences⟩ := p
  unfold mixNoise
  simp only
  split
  · exact ⟨_, _, rfl⟩
  · exact ⟨bs, noiseState, rfl⟩

theorem inferences_mixNoise (p : Player) : p.mixNoise.inferences = p.inferences := by
  obtain ⟨bs, state, hmixed⟩ := p.mixNoise_eq
  rw [hmixed]

theorem inferences_descend (p : Player) (below : Tree) (position : Position) :
    (p.descend below position).inferences = p.inferences := by
  unfold descend
  split
  · exact inferences_mixNoise _
  · rfl

theorem advance_of_branch (hfind : p.tree.branches.find? (·.1 == m) = some (found, below))
    (hposition : p.positionAfter m below = .ok position) :
    p.advance m = .ok (p.descend below position) := by
  unfold advance Call.outcome
  rw [run_moveRoot, hfind]
  simp only [hposition]

theorem advance_of_none (hfind : p.tree.branches.find? (·.1 == m) = none)
    (hroot : p.position? = some root) :
    p.advance m = match root.play m with
      | .ok position => .ok { p with tree := .root position }
      | .error reason => .error (.refused reason) := by
  unfold advance Call.outcome
  rw [run_moveRoot, hfind, rootPosition, hroot]
  simp only
  cases root.play m <;> rfl

/-- What stands at the end of a move is the position that the rules give, known or not. -/
theorem positionAfter_eq (hroot : p.position? = some root) (hplay : root.play m = .ok position)
    (hknown : ∀ known, below.top.position = some known → known = position) :
    p.positionAfter m below = .ok position := by
  unfold positionAfter
  split
  · rename_i known hk
    rw [hknown known hk]
  · rename_i hunknown
    rw [rootPosition, hroot]
    simp only [bind, Except.bind, Tree.positionBelow, hunknown, hplay]

/-- A move leads down a branch, or to a new tree. -/
theorem advance_cases (ok : p.advance m = .ok p') :
    (∃ found below position, p.tree.branches.find? (·.1 == m) = some (found, below) ∧
      p.positionAfter m below = .ok position ∧ p' = p.descend below position) ∨
    (∃ root position, p.position? = some root ∧ root.play m = .ok position ∧
      p' = { p with tree := .root position }) := by
  rw [advance, Call.outcome_eq_ok_iff, run_moveRoot] at ok
  cases hfind : p.tree.branches.find? (·.1 == m) with
  | some b =>
    obtain ⟨found, below⟩ := b
    rw [hfind] at ok
    simp only at ok
    cases hposition : p.positionAfter m below with
    | ok position =>
      rw [hposition] at ok
      cases ok
      exact .inl ⟨found, below, position, rfl, hposition, rfl⟩
    | error fault =>
      rw [hposition] at ok
      cases ok
  | none =>
    rw [hfind, rootPosition] at ok
    cases hroot : p.position? with
    | some root =>
      rw [hroot] at ok
      simp only at ok
      cases hplay : root.play m with
      | ok position =>
        rw [hplay] at ok
        cases ok
        exact .inr ⟨root, position, rfl, hplay, rfl⟩
      | error reason =>
        rw [hplay] at ok
        cases ok
    | none =>
      rw [hroot] at ok
      cases ok

end Player

end Goban
