import Goban.Proofs.Game.Faithful
import Goban.Proofs.Rules.Capture

/-!
# A refused move leaves no trace

The rules refuse a move for the first reason that applies (`Position.Refuses`,
`Position.play_eq_error_iff`). The last reason comes late: that a stone would be suicide shows only
when it stands and its captures are off the board, so the move has changed the position before it
is refused. Yet every call ends in the state in which it began if it ends with an error, and the
error is the reason of the rules; a game adds one reason of its own, that it is over
(`Game.refusal_leaves_no_trace`).
-/

namespace Goban

namespace Call

variable {ε σ : Type} {s after : σ} {reason : ε} {ruling : Except ε σ}

/-- A call that changes the state as a whole or not at all is refused only where it began. -/
theorem settled_eq_error_iff : settled s ruling = .error reason after ↔
    after = s ∧ ruling = .error reason := by
  constructor
  · intro h
    cases ruling with
    | ok next => cases h
    | error reason =>
      cases h
      exact ⟨rfl, rfl⟩
  · rintro ⟨rfl, rfl⟩
    rfl

end Call

namespace Position

variable {pos : Position} {p : Point} {m : Move} {reason : IllegalMove}

/-- Why the rules refuse a move: the first reason that applies. -/
inductive Refuses (pos : Position) : Move → IllegalMove → Prop where
  | resign : Refuses pos .resign .resign
  | gameOver {m : Move} (hmove : m ≠ .resign) (hover : pos.isOver = true) :
    Refuses pos m .gameOver
  | occupied {p : Point} (hgoes : pos.isOver = false) (hp : pos.board[p] ≠ none) :
    Refuses pos (.stone p) (.occupied p)
  | ko {p : Point} (hgoes : pos.isOver = false) (hp : pos.board[p] = none)
      (hko : pos.ko = some p) : Refuses pos (.stone p) (.ko p)
  /-- The stone with its captures taken off is in a chain that touches no empty point. -/
  | suicide {p : Point} (hgoes : pos.isOver = false) (hp : pos.board[p] = none)
      (hko : pos.ko ≠ some p) (hdead : (pos.board.put pos.toPlay p).Smothered pos.toPlay p) :
    Refuses pos (.stone p) (.suicide p)

theorem smothered_put_iff : (pos.board.put pos.toPlay p).Smothered pos.toPlay p ↔
    (pos.board.put pos.toPlay p).libertyCount p = 0 := by
  rw [Board.smothered_iff, Board.put_self, and_iff_right rfl]

theorem Refuses.play_eq (h : pos.Refuses m reason) : pos.play m = .error reason := by
  cases h with
  | resign => rfl
  | gameOver hmove hover =>
    cases m with
    | resign => exact absurd rfl hmove
    | pass => rw [play_pass, if_pos hover]
    | stone p => rw [play_stone_eq, if_pos hover]
  | occupied hgoes hp =>
    rw [play_stone_eq, hgoes, if_neg Bool.false_ne_true, if_pos (Option.isSome_iff_ne_none.mpr hp)]
  | ko hgoes hp hko =>
    rw [play_stone_eq, hgoes, if_neg Bool.false_ne_true, if_neg (by simp [hp]), if_pos hko]
  | suicide hgoes hp hko hdead =>
    rw [play_stone hgoes hp hko, if_pos (smothered_put_iff.mp hdead)]

/-- A refusal names the first reason that applies. -/
theorem refuses_of_play (h : pos.play m = .error reason) : pos.Refuses m reason := by
  cases m with
  | resign =>
    cases h
    exact .resign
  | pass =>
    rw [play_pass] at h
    split at h <;> cases h
    exact .gameOver nofun ‹_›
  | stone p =>
    rw [play_stone_eq] at h
    split at h
    · cases h
      exact .gameOver nofun ‹_›
    · rename_i hgoes
      rw [Bool.not_eq_true] at hgoes
      split at h
      · rename_i hp
        cases h
        exact .occupied hgoes (Option.isSome_iff_ne_none.mp hp)
      · rename_i hp
        rw [Option.not_isSome_iff_eq_none] at hp
        split at h
        · cases h
          exact .ko hgoes hp ‹_›
        · rename_i hko
          split at h <;> cases h
          exact .suicide hgoes hp hko (smothered_put_iff.mpr ‹_›)

theorem play_eq_error_iff : pos.play m = .error reason ↔ pos.Refuses m reason :=
  ⟨refuses_of_play, Refuses.play_eq⟩

/-- Black stones on both sides of a corner, and white to play. -/
def beset : Position :=
  ofBoard ((Board.blank.set 1 (some .black)).set 9 (some .black)) .white 2 (.ofInt 7)

/-- A stone in the corner is put there and taken back. -/
example : beset.play (.stone 0) = .error (.suicide 0) :=
  Refuses.play_eq (.suicide rfl (by decide) nofun (smothered_put_iff.mpr (by decide +kernel)))

end Position

namespace Game

variable {g : Game} {m : Move} {comment : String} {reason : IllegalMove}

/-- A game refuses every move once it is over, and until then what the rules refuse but for a
resignation. -/
theorem add_eq_error_iff : g.add m comment = .error reason ↔
    g.isOver = true ∧ reason = .gameOver ∨
      g.isOver = false ∧ m ≠ .resign ∧ g.position.play m = .error reason := by
  rw [add_eq]
  cases hover : g.isOver with
  | true =>
    rw [if_pos rfl, Except.error.injEq]
    simp [eq_comm]
  | false =>
    rw [if_neg Bool.false_ne_true]
    by_cases hresign : m = .resign
    · rw [if_pos hresign]
      exact iff_of_false nofun (by simp [hresign])
    · rw [if_neg hresign]
      cases hplay : g.position.play m <;> simp [hresign, Except.map]

/-- A call that makes a move ends with an error exactly if the move is refused, and then in the
state in which it began. A position refuses for the reasons of the rules; so does a game, unless it
is over, which is its reason then. -/
theorem refusal_leaves_no_trace (m : Move) :
    (∀ pos reason after, (Position.makeMove m).run pos = .error reason after ↔
      after = pos ∧ pos.play m = .error reason ∧ pos.Refuses m reason) ∧
    ∀ g comment reason after, (makeMove m comment).run g = .error reason after ↔
      after = g ∧ g.add m comment = .error reason ∧
        (g.isOver = true ∧ reason = .gameOver ∨
          g.isOver = false ∧ m ≠ .resign ∧ g.position.play m = .error reason) := by
  constructor
  · intro pos reason after
    simp only [Position.run_makeMove, Call.settled_eq_error_iff, Position.play_eq_error_iff,
      and_self]
  · intro g comment reason after
    simp only [run_makeMove, ← add_eq, Call.settled_eq_error_iff, add_eq_error_iff, and_self]

end Game

end Goban
