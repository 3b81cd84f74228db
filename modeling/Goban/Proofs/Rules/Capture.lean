import Mathlib.Order.Minimal
import Goban.Proofs.Rules.Plays

/-!
# A play follows the rule of capture

The rule looks at the whole board: once a stone is put, every chain of the opponent that touches no
empty point is taken off, where a chain is a maximal connected set of stones of one color. `play`
looks only at the neighbours of the stone, and takes their chains off one after the other. The two
agree where every chain had a liberty before (`Position.play_captures`), because then only a
neighbour can have lost its last one (`Board.Breathes.of_not_next`), and because the chains of one
color that are taken off do not touch, so that none of them gets a liberty from another
(`Board.capture_place`). The count of moves is a word, and is one move more only below its end
(`Position.count_starts_again`).
-/

namespace Goban

namespace Board

variable {b after : Board} {p q : Point} {color : Color} {s : Set Point}

/-! ## Chains as the rules define them -/

/-- Stones of one color, from each of which one gets to each by steps inside the set. -/
structure IsConnected (b : Board) (color : Color) (s : Set Point) : Prop where
  nonempty : s.Nonempty
  stone : ∀ p ∈ s, b[p] = some color
  joined : ∀ p ∈ s, ∀ q ∈ s, Relation.ReflTransGen (fun x y => x.Touches y ∧ y ∈ s) p q

/-- A maximal connected set of stones of one color. -/
def IsChain (b : Board) (color : Color) (s : Set Point) : Prop := Maximal (b.IsConnected color) s

/-- Some point of the set touches an empty point. -/
def HasLiberty (b : Board) (s : Set Point) : Prop := ∃ p ∈ s, ∃ l, p.Touches l ∧ b[l] = none

theorem isConnected_chain (hp : b[p] = some color) :
    b.IsConnected color {q | (b.chain p).has q = true} := by
  refine ⟨⟨p, has_chain_self b p⟩, ?_, ?_⟩
  · intro q hq
    exact (getElem_of_has_chain hq).trans hp
  · intro x hx y hy
    have hxy : (b.chain x).has y = true := by
      rw [chain_eq hx]
      exact hy
    -- Each step of the way from `x` stays in the chain of `x`, which is the chain of `p`.
    induction has_chain.mp hxy with
    | refl => exact .refl
    | @tail y z hway hstep ih =>
      have hxy := has_chain.mpr hway
      have hxz := has_chain.mpr (hway.tail hstep)
      rw [chain_eq hx] at hxy hxz
      exact (ih hxy (has_chain.mpr hway)).tail ⟨Point.mem_neighbours.mp hstep.1, hxz⟩

theorem IsConnected.has_chain (h : b.IsConnected color s) (hp : p ∈ s) (hq : q ∈ s) :
    (b.chain p).has q = true := by
  have hway := h.joined p hp q hq
  clear hq
  induction hway with
  | refl => exact has_chain_self b p
  | tail _ hstep ih =>
    apply has_chain_of_mem_neighbours ih (Point.mem_neighbours.mpr hstep.1)
    rw [h.stone _ hstep.2, h.stone p hp]

/-- The chains of the rules are the sets that `chain` finds from the stones. -/
theorem isChain_iff :
    b.IsChain color s ↔ ∃ p, b[p] = some color ∧ s = {q | (b.chain p).has q = true} := by
  constructor
  · intro h
    obtain ⟨p, hp⟩ := h.prop.nonempty
    have hcolor := h.prop.stone p hp
    have hsub : s ⊆ {q | (b.chain p).has q = true} := fun q hq => h.prop.has_chain hp hq
    exact ⟨p, hcolor, Set.Subset.antisymm hsub (h.2 (isConnected_chain hcolor) hsub)⟩
  · rintro ⟨p, hp, rfl⟩
    refine ⟨isConnected_chain hp, ?_⟩
    intro t ht hsub q hq
    exact ht.has_chain (hsub (has_chain_self b p)) hq

theorem hasLiberty_chain : b.HasLiberty {q | (b.chain p).has q = true} ↔ b.libertyCount p ≠ 0 := by
  rw [libertyCount_ne_zero]
  constructor
  · rintro ⟨s, hs, l, hsl, hl⟩
    exact ⟨l, s, hs, Point.mem_neighbours_comm.mp (Point.mem_neighbours.mpr hsl), hl⟩
  · rintro ⟨l, s, h⟩
    exact ⟨s, h.stone, l, Point.mem_neighbours.mp (Point.mem_neighbours_comm.mp h.next), h.empty⟩

theorem breathes_iff : b.Breathes ↔ ∀ color s, b.IsChain color s → b.HasLiberty s := by
  constructor
  · intro h color s hs
    obtain ⟨p, hp, rfl⟩ := isChain_iff.mp hs
    exact hasLiberty_chain.mpr (h p (by simp [hp]))
  · intro h p hp
    obtain ⟨color, hcolor⟩ := Option.ne_none_iff_exists'.mp hp
    exact hasLiberty_chain.mp (h color _ (isChain_iff.mpr ⟨p, hcolor, rfl⟩))

/-- A board where each stone is next to an empty point breathes. -/
theorem breathes_of_next (h : ∀ p : Point, b[p] ≠ none → ∃ l ∈ p.neighbours, b[l] = none) :
    b.Breathes := by
  intro p hp
  obtain ⟨l, hl, hempty⟩ := h p hp
  exact libertyCount_of_next hl hempty

/-! ## What is taken off -/

/-- The point is in a chain of the color that touches no empty point. -/
def Smothered (b : Board) (color : Color) (q : Point) : Prop :=
  ∃ s, b.IsChain color s ∧ q ∈ s ∧ ¬ b.HasLiberty s

/-- The second board is the first one without the smothered chains of a color. -/
def IsCleared (b : Board) (color : Color) (after : Board) : Prop :=
  ∀ q : Point, (b.Smothered color q → after[q] = none) ∧
    (¬ b.Smothered color q → after[q] = b[q])

theorem smothered_iff : b.Smothered color q ↔ b[q] = some color ∧ b.libertyCount q = 0 := by
  constructor
  · rintro ⟨s, hs, hq, hno⟩
    obtain ⟨p, hp, rfl⟩ := isChain_iff.mp hs
    rw [hasLiberty_chain, not_not, ← libertyCount_eq hq] at hno
    exact ⟨(getElem_of_has_chain hq).trans hp, hno⟩
  · rintro ⟨hq, hno⟩
    refine ⟨_, isChain_iff.mpr ⟨q, hq, rfl⟩, has_chain_self b q, ?_⟩
    rw [hasLiberty_chain, not_not]
    exact hno

/-- What a stone catches beside it is what the rule takes off everywhere. -/
theorem Breathes.caught_iff (h : b.Breathes) (hp : b[p] = none) :
    (b.caught color p).has q = true ↔ (b.place color p).Smothered color.other q := by
  rw [smothered_iff]
  exact h.has_caught hp

theorem Breathes.isCleared_put (h : b.Breathes) (hp : b[p] = none) :
    (b.place color p).IsCleared color.other (b.put color p) := by
  intro q
  rw [← h.caught_iff hp, getElem_put]
  constructor
  · intro hq
    rw [if_pos hq]
  · intro hq
    rw [if_neg hq]

end Board

namespace Position

variable {pos : Position} {p : Point}

/-- A stone on an empty point without ko takes the smothered chains of the opponent off the board;
it is refused as suicide exactly when its own chain is smothered then. A move more is counted unless
the count was at its end. -/
theorem play_captures
    (hlib : ∀ color s, pos.board.IsChain color s → pos.board.HasLiberty s)
    (hover : pos.isOver = false) (hp : pos.board[p] = none) (hko : pos.ko ≠ some p) :
    ∃ after : Board, (pos.board.place pos.toPlay p).IsCleared pos.toPlay.other after ∧
      (pos.play (.stone p) = .error (.suicide p) ↔ after.Smothered pos.toPlay p) ∧
      (¬ after.Smothered pos.toPlay p → ∃ next, pos.play (.stone p) = .ok next ∧
        next.board = after ∧ next.toPlay = pos.toPlay.other ∧
        (pos.moveCount.toNat + 1 < 2 ^ 32 →
          next.moveCount.toNat = pos.moveCount.toNat + 1) ∧ next.passes = 0) := by
  have hbreathes := Board.breathes_iff.mpr hlib
  refine ⟨pos.board.put pos.toPlay p, hbreathes.isCleared_put hp, ?_, ?_⟩
  · rw [play_stone hover hp hko, Board.smothered_iff]
    split
    · rename_i hzero
      exact iff_of_true rfl ⟨Board.put_self _ _ _, hzero⟩
    · rename_i hpos
      exact iff_of_false nofun fun h => hpos h.2
  · intro hfree
    have hpos : (pos.board.put pos.toPlay p).libertyCount p ≠ 0 := by
      intro hzero
      exact hfree (Board.smothered_iff.mpr ⟨Board.put_self _ _ _, hzero⟩)
    have hplay := (play_stone hover hp hko).trans (if_neg hpos)
    exact ⟨_, hplay, rfl, rfl, toNat_moveCount_play hplay, rfl⟩

/-- A black stone beside a white one in the corner; a stone on the corner's other side takes it. -/
def cornerStone : Position :=
  ofBoard (Vector.ofFn fun p => if p.val = 0 then some .white else if p.val = 1 then some .black
    else none) .black 2 (.ofInt 7)

theorem breathes_cornerStone : cornerStone.board.Breathes := by
  apply Board.breathes_of_next
  decide +kernel

theorem play_captures_in_corner :
    (∀ color s, cornerStone.board.IsChain color s → cornerStone.board.HasLiberty s) ∧
      cornerStone.isOver = false ∧ cornerStone.board[(9 : Point)] = none ∧
      cornerStone.ko ≠ some 9 ∧ cornerStone.board[(0 : Point)] = some .white ∧
      ∃ next, cornerStone.play (.stone 9) = .ok next ∧ next.board[(0 : Point)] = none ∧
        next.moveCount.toNat = 3 := by
  have hlib := Board.breathes_iff.mp breathes_cornerStone
  have hp : cornerStone.board[(9 : Point)] = none := by decide +kernel
  refine ⟨hlib, rfl, hp, nofun, by decide +kernel, ?_⟩
  obtain ⟨after, hcleared, -, hok⟩ := play_captures hlib rfl hp nofun
  have htaken : after[(0 : Point)] = none := by
    refine (hcleared 0).1 (Board.smothered_iff.mpr ?_)
    decide +kernel
  have hfree : ¬ after.Smothered .black 9 := by
    rw [Board.smothered_iff]
    rintro ⟨-, hzero⟩
    have hnext : (0 : Point) ∈ (9 : Point).neighbours := by decide
    exact Board.libertyCount_of_next hnext htaken hzero
  obtain ⟨next, hnext, hboard, -, hcount, -⟩ := hok hfree
  exact ⟨next, hnext, hboard ▸ htaken, hcount (by decide)⟩

/-- The empty board with the count of moves at its end. -/
def lastCount : Position := ofBoard .blank .black 4294967295 (.ofInt 7)

/-- At its end the count starts again instead of counting the stone that is put. -/
theorem count_starts_again :
    (∀ color s, lastCount.board.IsChain color s → lastCount.board.HasLiberty s) ∧
      lastCount.isOver = false ∧ lastCount.board[(0 : Point)] = none ∧ lastCount.ko ≠ some 0 ∧
      ∃ next, lastCount.play (.stone 0) = .ok next ∧
        next.moveCount.toNat ≠ lastCount.moveCount.toNat + 1 := by
  have hbreathes : lastCount.board.Breathes := breathes_initial (.ofInt 7)
  have hp : lastCount.board[(0 : Point)] = none := getElem_blank 0
  have hfree : (lastCount.board.put .black 0).libertyCount 0 ≠ 0 :=
    Board.libertyCount_put_of_empty (show (1 : Point) ∈ (0 : Point).neighbours by decide)
      (getElem_blank 1)
  obtain ⟨next, hplay⟩ := exists_play_stone rfl hp nofun hfree
  refine ⟨Board.breathes_iff.mp hbreathes, rfl, hp, nofun, next, hplay, ?_⟩
  rw [moveCount_play hplay]
  decide

end Position

end Goban
