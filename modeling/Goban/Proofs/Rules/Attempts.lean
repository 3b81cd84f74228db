import Mathlib.Logic.Function.Iterate
import Goban.Proofs.Rules.Capture
import Goban.Proofs.Rules.Ko

/-!
# Positions after attempts

Whoever plays may try any moves (`Position.tried`). A move that the rules refuse leaves no trace
(`Position.tried_eq`), so the position in the end is the one that the accepted moves lead to
(`Position.playAll_accepted`). What those moves are is written in the position: it counts them,
knows how many passes came last (`Position.endsInPasses_playAll`), and knows a ko only right after
the stone that took one (`Position.Orderly.play`).
-/

namespace Goban

namespace Board

variable {b : Board} {p k q : Point} {color : Color}

/-- All around the taken stone stand stones of the color that took it. -/
theorem TakesOne.getElem_around (h : b.TakesOne color p k) (hq : q ∈ k.neighbours) :
    (b.put color p)[q] = some color := by
  obtain ⟨n, hn, hchain⟩ := has_withoutLiberty.mp ((h.caught k).mpr rfl)
  have hnk : n = k := (h.caught n).mp (has_withoutLiberty.mpr ⟨n, hn, has_chain_self _ n⟩)
  subst hnk
  have hqn : q ≠ n := Point.ne_of_mem_neighbours hq
  have hfree : (b.caught color p).has q = false := by
    by_contra hcaught
    exact hqn ((h.caught q).mp ((Bool.not_eq_false _).mp hcaught))
  rw [getElem_put, hfree, if_neg Bool.false_ne_true]
  obtain ⟨c, hc⟩ := Option.ne_none_iff_exists'.mp (hn.ne_none hq)
  by_cases hcolor : c = color
  · rw [hc, hcolor]
  · -- A stone of the other color would be in the chain of the taken one, which is alone.
    rw [Color.eq_other_of_ne hcolor] at hc
    have hjoin := has_chain_of_mem_neighbours (has_chain_self _ n) hq (hc.trans hn.stone.symm)
    exact absurd ((h.caught q).mp (has_withoutLiberty.mpr ⟨n, hn, hjoin⟩)) hqn

end Board

namespace Position

variable {start pos mid next : Position} {m : Move} {moves plies : List Move} {k : Point}

/-! ## Passes at the end -/

/-- The number of passes that come last in a list of moves. -/
def EndsInPasses (count : Nat) (plies : List Move) : Prop :=
  List.replicate count .pass <:+ plies ∧ ¬ List.replicate (count + 1) .pass <:+ plies

namespace EndsInPasses

theorem replicate (count : Nat) : EndsInPasses count (List.replicate count .pass) := by
  refine ⟨List.suffix_refl _, fun h => ?_⟩
  have hlength := h.length_le
  simp only [List.length_replicate] at hlength
  omega

theorem play (h : EndsInPasses pos.passes plies) (hplay : pos.play m = .ok next) :
    EndsInPasses next.passes (plies ++ [m]) := by
  have hcons : ∀ count, List.replicate (count + 1) Move.pass <:+ plies ++ [.pass] ↔
      List.replicate count .pass <:+ plies := by
    intro count
    rw [List.replicate_succ', List.suffix_append_inj_of_length_eq rfl, and_iff_left rfl]
  rcases play_cases hplay with ⟨rfl, rfl⟩ | ⟨p, rfl, rfl⟩
  · exact ⟨(hcons _).mpr h.1, fun hmore => h.2 ((hcons _).mp hmore)⟩
  · refine ⟨List.nil_suffix, ?_⟩
    rintro ⟨front, hfront⟩
    cases (List.append_inj' hfront rfl).2

/-- Two passes come last exactly if the count, which is no greater, is two. -/
theorem eq_two_iff {count : Nat} (h : EndsInPasses count plies) (hle : count ≤ 2) :
    count = 2 ↔ [.pass, .pass] <:+ plies := by
  constructor
  · rintro rfl
    exact h.1
  · intro htwo
    by_contra hne
    have hshort : count + 1 ≤ 2 := by omega
    have hpart : List.replicate (count + 1) Move.pass <:+ List.replicate 2 .pass := by
      rw [List.suffix_replicate_iff]
      simpa using hshort
    exact h.2 (hpart.trans htwo)

end EndsInPasses

theorem passes_le_two (hplay : pos.play m = .ok next) : next.passes ≤ 2 := by
  have hover : ¬ 2 ≤ pos.passes := of_decide_eq_false (isOver_of_play hplay)
  rcases play_cases hplay with ⟨-, rfl⟩ | ⟨p, -, rfl⟩
  · show pos.passes + 1 ≤ 2
    omega
  · exact Nat.zero_le 2

/-- The position counts the passes that came last, if those at the start are counted with them. -/
theorem endsInPasses_playAll (h : start.playAll moves = .ok pos) :
    EndsInPasses pos.passes (List.replicate start.passes .pass ++ moves) := by
  refine playAll_invariant (P := fun made mid =>
    EndsInPasses mid.passes (List.replicate start.passes .pass ++ made)) ?_ ?_ h
  · intro made mid m next hmid hplay
    rw [← List.append_assoc]
    exact hmid.play hplay
  · rw [List.append_nil]
    exact .replicate start.passes

theorem passes_playAll (hover : start.isOver = false) (h : start.playAll moves = .ok pos) :
    pos.passes ≤ 2 :=
  playAll_induction (P := fun pos => pos.passes ≤ 2)
    (fun _ _ _ _ hplay => passes_le_two hplay)
    (Nat.le_of_lt (Nat.lt_of_not_le (of_decide_eq_false hover))) h

/-- The position is over after two passes in a row. -/
theorem isOver_playAll_iff (hover : start.isOver = false) (h : start.playAll moves = .ok pos) :
    pos.isOver = true ↔
      [.pass, .pass] <:+ List.replicate start.passes .pass ++ moves := by
  have hfew := passes_playAll hover h
  rw [← (endsInPasses_playAll h).eq_two_iff hfew, isOver, decide_eq_true_iff]
  omega

/-! ## Attempts -/

/-- The position in which the call that makes a move leaves off, also if it refuses the move. -/
def tried (pos : Position) (m : Move) : Position := (makeMove m).after pos

/-- Those of some moves that are accepted when they are tried one after the other. -/
def accepted (pos : Position) : List Move → List Move
  | [] => []
  | m :: moves =>
    if (pos.play m).isOk then m :: (pos.tried m).accepted moves else (pos.tried m).accepted moves

/-- What is refused is taken back: a move that is tried is made, or leaves no trace. -/
theorem tried_eq (pos : Position) (m : Move) : pos.tried m = (pos.play m).toOption.getD pos :=
  Call.after_of_settled (run_makeMove pos m)

/-- The accepted moves lead to the position after all attempts. -/
theorem playAll_accepted (pos : Position) (moves : List Move) :
    pos.playAll (pos.accepted moves) = .ok (moves.foldl tried pos) := by
  induction moves generalizing pos with
  | nil => rfl
  | cons m moves ih =>
    rw [accepted, List.foldl_cons, tried_eq]
    cases hplay : pos.play m with
    | ok next =>
      rw [Except.isOk, Except.toBool, if_pos rfl, playAll_cons, hplay]
      exact ih next
    | error refusal =>
      rw [Except.isOk, Except.toBool, if_neg Bool.false_ne_true]
      exact ih pos

theorem foldl_tried_of_playAll (h : pos.playAll moves = .ok next) :
    moves.foldl tried pos = next := by
  induction moves generalizing pos with
  | nil =>
    cases h
    rfl
  | cons m moves ih =>
    rw [playAll_cons] at h
    rw [List.foldl_cons, tried_eq]
    cases hplay : pos.play m with
    | ok mid =>
      rw [hplay] at h
      exact ih h
    | error refusal =>
      rw [hplay] at h
      cases h

/-! ## What a position says of the moves before it -/

/-- A position in order, after some moves that were accepted from a start. -/
structure Orderly (start : Position) (made : List Move) (pos : Position) : Prop where
  /-- Every chain has a liberty. -/
  breathes : ∀ color s, pos.board.IsChain color s → pos.board.HasLiberty s
  /-- A ko is an empty point among stones of the side that has just put a stone. -/
  ko : ∀ k, pos.ko = some k → pos.board[k] = none ∧
    (∀ q, k.Touches q → pos.board[q] = some pos.toPlay.other) ∧ ∃ p, made.getLast? = some (.stone p)
  /-- There are never more than two passes in a row. -/
  few : pos.passes ≤ 2
  /-- There are two if the last two moves were passes. -/
  two : pos.passes = 2 ↔ [.pass, .pass] <:+ made
  /-- The accepted moves are counted, in a word of 32 bits. -/
  count : pos.moveCount.toNat = (start.moveCount.toNat + made.length) % 2 ^ 32
  turn : pos.toPlay = Color.other^[made.length] start.toPlay

/-- The positions that a game may be set up with: the empty board, or a board on which every chain
has a liberty. -/
inductive Opening : Position → Prop where
  | initial (komi : Single) : Opening (initial komi)
  | ofBoard {board : Board} (breathes : ∀ color s, board.IsChain color s → board.HasLiberty s)
      (toPlay : Color) (moveCount : UInt32) (komi : Single) :
      Opening (ofBoard board toPlay moveCount komi)

/-- The ko of a position after a move, and what is around it. -/
theorem ko_of_play (hplay : pos.play m = .ok next) (hko : next.ko = some k) :
    next.board[k] = none ∧ (∀ q ∈ k.neighbours, next.board[q] = some pos.toPlay) ∧
      ∃ p, m = .stone p := by
  rcases play_cases hplay with ⟨-, rfl⟩ | ⟨p, rfl, rfl⟩
  · cases hko
  · have htakes := ko_afterStone.mp hko
    exact ⟨htakes.put_taken, fun q hq => htakes.getElem_around hq, p, rfl⟩

/-- An accepted move keeps a position in order. -/
theorem Orderly.play {made : List Move} (h : Orderly start made pos)
    (hends : EndsInPasses next.passes (made ++ [m])) (hplay : pos.play m = .ok next) :
    Orderly start (made ++ [m]) next where
  breathes := Board.breathes_iff.mp (breathes_play (Board.breathes_iff.mpr h.breathes) hplay)
  ko k hko := by
    obtain ⟨hempty, haround, p, rfl⟩ := ko_of_play hplay hko
    refine ⟨hempty, ?_, p, List.getLast?_concat⟩
    intro q hq
    rw [toPlay_play hplay, Color.other_other]
    exact haround q (Point.mem_neighbours.mpr hq)
  few := passes_le_two hplay
  two := hends.eq_two_iff (passes_le_two hplay)
  count := by
    rw [moveCount_play hplay, UInt32.toNat_add, h.count, List.length_append, List.length_singleton,
      UInt32.toNat_one, Nat.mod_add_mod, Nat.add_assoc]
  turn := by
    rw [toPlay_play hplay, h.turn, List.length_append, List.length_singleton,
      Function.iterate_succ_apply']

namespace Opening

theorem passes_eq (h : Opening start) : start.passes = 0 := by
  cases h <;> rfl

theorem orderly (h : Opening start) : Orderly start [] start := by
  have hpasses := h.passes_eq
  refine ⟨?_, ?_, by omega, ?_, (Nat.mod_eq_of_lt start.moveCount.toNat_lt).symm, rfl⟩
  · cases h with
    | initial komi => exact Board.breathes_iff.mp (breathes_initial komi)
    | ofBoard breathes => exact breathes
  · intro k hko
    cases h <;> cases hko
  · rw [hpasses]
    exact iff_of_false nofun fun h => nomatch h.length_le

/-- Plays from an opening lead to a position in order. -/
theorem orderly_playAll (h : Opening start) (hplays : start.playAll moves = .ok pos) :
    Orderly start moves pos := by
  have hstep : ∀ made mid m next, start.playAll made = .ok mid ∧ Orderly start made mid →
      mid.play m = .ok next →
      start.playAll (made ++ [m]) = .ok next ∧ Orderly start (made ++ [m]) next := by
    rintro made mid m next ⟨hmade, hmid⟩ hplay
    have hnext := playAll_concat hmade hplay
    have hends := endsInPasses_playAll hnext
    rw [h.passes_eq] at hends
    exact ⟨hnext, hmid.play hends hplay⟩
  exact (playAll_invariant hstep ⟨rfl, h.orderly⟩ hplays).2

/-- Whatever moves are tried from an opening, the position in the end is in order after those that
were accepted. -/
theorem attempts_keep_order (h : Opening start) (moves : List Move) :
    Orderly start (start.accepted moves) (moves.foldl tried start) :=
  h.orderly_playAll (start.playAll_accepted moves)

end Opening

/-- Black and white around the corner, until black takes the stone in it. -/
def cornerMoves : List Move := (.stone 9 :: againstPasses [0, 2, 10]) ++ [.stone 1]

theorem exists_ko_after_cornerMoves : ∃ pos,
    (initial (.ofInt 7)).playAll cornerMoves = .ok pos ∧ pos.ko = some 0 := by
  obtain ⟨pos, hplays, hboard, hturn, hover, hfree⟩ := exists_cornerKo
  have htakes : cornerKo.TakesOne .black 1 0 := Board.KoShape.takesOne (by decide +kernel)
  have hempty : pos.board[(1 : Point)] = none := by
    rw [hboard]
    decide +kernel
  have hlib : (cornerKo.put .black 1).libertyCount 1 ≠ 0 :=
    Board.libertyCount_of_next (by decide) htakes.put_taken
  have hnext : pos.play (.stone 1) = .ok (pos.afterStone 1) := by
    rw [play_stone hover hempty (by rw [hfree]; exact nofun), hboard, hturn]
    exact if_neg hlib
  refine ⟨pos.afterStone 1, playAll_concat hplays hnext, ?_⟩
  rw [ko_afterStone, hboard, hturn]
  exact htakes

/-- Black has taken the stone in the corner, and white tries in vain to take back. -/
theorem attempts_keep_order_around_corner :
    Opening (initial (.ofInt 7)) ∧ ∃ pos,
      (cornerMoves ++ [Move.stone 0]).foldl tried (initial (.ofInt 7)) = pos ∧ pos.ko = some 0 ∧
        pos.board[(0 : Point)] = none ∧ pos.board[(9 : Point)] = some pos.toPlay.other := by
  obtain ⟨pos, hplays, hko⟩ := exists_ko_after_cornerMoves
  have hcorner := foldl_tried_of_playAll hplays
  have hlast : (cornerMoves ++ [Move.stone 0]).foldl tried (initial (.ofInt 7)) = pos := by
    rw [List.foldl_append, hcorner]
    show pos.tried (.stone 0) = pos
    rw [tried_eq]
    cases hplay : pos.play (.stone 0) with
    | ok next => exact absurd hko (play_stone_eq_ok hplay).2.1
    | error refusal => rfl
  have hkept := (Opening.attempts_keep_order (.initial (.ofInt 7))
    (cornerMoves ++ [Move.stone 0])).ko 0
  rw [hlast] at hkept
  obtain ⟨hempty, haround, -⟩ := hkept hko
  exact ⟨.initial _, pos, hlast, hko, hempty, haround 9 (Point.mem_neighbours.mp (by decide))⟩

end Position

end Goban
