import Mathlib.Data.List.DropRight
import Goban.Model.Features
import Goban.Proofs.Rules.Plays

/-!
# The planes show the history

A play puts the board before it in front of the remembered ones, so each of them is a move older
then (`Position.boardAt?_play`), and after any moves a position remembers the boards that they led
through (`Position.boardAt?_playAll`). The planes for a network tell each of these boards point by
point, as the side to play sees it (`Features.Shows`), so a batch keeps apart all positions that
differ in the side to play or in one of these boards (`Features.planes_show_history`).
-/

namespace Goban

namespace Position

variable {start pos next : Position} {m : Move} {moves : List Move} {age : Nat}

/-! ## What a position remembers -/

theorem history_play (h : pos.play m = .ok next) : next.history = pos.remember := by
  rcases play_cases h with ⟨-, rfl⟩ | ⟨p, -, rfl⟩ <;> rfl

/-- Every board that a position knows is a move older after a play. -/
theorem boardAt?_play (h : pos.play m = .ok next) (hage : age < historyLength) :
    next.boardAt? (age + 1) = pos.boardAt? age := by
  unfold boardAt?
  rw [if_neg (Nat.succ_ne_zero age), Nat.add_sub_cancel, history_play h, remember,
    Vector.getElem?_ofFn, dif_pos hage]
  cases age with
  | zero => rfl
  | succ age =>
    rw [if_neg (Nat.succ_ne_zero age), if_neg (Nat.succ_ne_zero age)]
    exact (Vector.getElem?_eq_getElem (Nat.lt_of_succ_lt hage)).symm

/-- The board before the last moves of a sequence, if there are so many. -/
def boardAgo? (start : Position) (moves : List Move) (age : Nat) : Option Board :=
  if moves.length < age then none
  else (start.playAll (moves.rdrop age)).toOption.map (·.board)

/-- The stone that a point had before the last moves of a sequence. -/
def stoneAgo? (start : Position) (moves : List Move) (age : Nat) (p : Point) : Option Color :=
  (start.boardAgo? moves age).bind (·[p])

theorem boardAgo?_of_lt (h : moves.length < age) : start.boardAgo? moves age = none := if_pos h

theorem stoneAgo?_of_lt (h : moves.length < age) (p : Point) :
    start.stoneAgo? moves age p = none := by
  rw [stoneAgo?, boardAgo?_of_lt h]
  rfl

theorem stoneAgo?_of_some {board : Board} (h : start.boardAgo? moves age = some board)
    (p : Point) : start.stoneAgo? moves age p = board[p] := by
  rw [stoneAgo?, h]
  rfl

theorem getElem_boardAgo? (start : Position) (moves : List Move) (age : Nat) (p : Point) :
    ((start.boardAgo? moves age).getD .blank)[p] = start.stoneAgo? moves age p := by
  unfold stoneAgo?
  cases start.boardAgo? moves age with
  | none => exact getElem_blank p
  | some board => rfl

theorem boardAgo?_zero (h : start.playAll moves = .ok pos) :
    start.boardAgo? moves 0 = some pos.board := by
  rw [boardAgo?, if_neg (Nat.not_lt_zero _), List.rdrop_zero, h]
  rfl

theorem boardAgo?_concat (start : Position) (moves : List Move) (m : Move) (age : Nat) :
    start.boardAgo? (moves ++ [m]) (age + 1) = start.boardAgo? moves age := by
  unfold boardAgo?
  rw [List.rdrop_concat_succ, List.length_append, List.length_singleton]
  simp only [Nat.add_lt_add_iff_right]

/-- After any moves a position without a past knows the boards that they led through. Before the
first of them the boards are blank. -/
theorem boardAt?_playAll {board : Board} {toPlay : Color} {moveCount : UInt32} {komi : Single}
    (h : (ofBoard board toPlay moveCount komi).playAll moves = .ok pos) :
    ∀ age ≤ historyLength, pos.boardAt? age =
      some (((ofBoard board toPlay moveCount komi).boardAgo? moves age).getD .blank) := by
  -- The moves made so far lead to the position, so its board is the latest one.
  refine (playAll_invariant (P := fun made mid =>
    (ofBoard board toPlay moveCount komi).playAll made = .ok mid ∧
      ∀ age ≤ historyLength, mid.boardAt? age =
        some (((ofBoard board toPlay moveCount komi).boardAgo? made age).getD .blank))
    ?_ ⟨rfl, ?_⟩ h).2
  · rintro made mid m next ⟨hmade, hknown⟩ hplay
    have hmore := playAll_concat hmade hplay
    refine ⟨hmore, fun age hage => ?_⟩
    cases age with
    | zero =>
      rw [boardAgo?_zero hmore]
      rfl
    | succ age =>
      rw [boardAt?_play hplay hage, boardAgo?_concat]
      exact hknown age (Nat.le_of_succ_le hage)
  · intro age hage
    cases age with
    | zero => rfl
    | succ age =>
      rw [boardAgo?_of_lt (Nat.succ_pos age)]
      exact Vector.getElem?_replicate_of_lt hage

end Position

namespace Features

variable {positions : List Position} {index k row column : Nat} {pos : Position}

open Position

/-! ## The entries of the input -/

/-- An entry of the input for a batch, by the index of the position, the plane, and the row and the
column of the point. -/
def entryAt? (input : List (List PointSet)) (index k row column : Nat) : Option Single :=
  if hr : row < side then
    if hc : column < side then
      (input[index]?.bind (·[k]?)).map fun plane =>
        if plane.has (.ofRowColumn row column hr hc) then .one else .zero
    else none
  else none

/-- What the input for a position shows of the moves that led to it: where each side had a stone so
many moves ago, and whether black is to play. -/
structure Shows (entry : Nat → Nat → Nat → Option Single) (start : Position) (moves : List Move)
    (toPlay : Color) : Prop where
  own : ∀ age ≤ historyLength, ∀ row column hr hc, entry (2 * age) row column =
    some (if start.stoneAgo? moves age (.ofRowColumn row column hr hc) = some toPlay
      then .one else .zero)
  opponents : ∀ age ≤ historyLength, ∀ row column hr hc, entry (2 * age + 1) row column =
    some (if start.stoneAgo? moves age (.ofRowColumn row column hr hc) = some toPlay.other
      then .one else .zero)
  /-- The planes for boards before the first move are empty. -/
  early : ∀ age ≤ historyLength, moves.length < age → ∀ row < side, ∀ column < side,
    entry (2 * age) row column = some .zero ∧ entry (2 * age + 1) row column = some .zero
  turn : ∀ row < side, ∀ column < side, entry (planeCount - 1) row column =
    some (if toPlay = .black then .one else .zero)
  /-- There is no other entry. -/
  shape : ∀ k row column, (entry k row column).isSome = true ↔
    k < planeCount ∧ row < side ∧ column < side

theorem getElem?_planes (pos : Position) (k : Nat) :
    (planes pos)[k]? = if h : k < planeCount then some (plane pos ⟨k, h⟩) else none := by
  unfold planes
  rw [List.getElem?_map]
  split
  · rename_i h
    rw [List.getElem?_eq_getElem (by simpa using h), List.getElem_finRange]
    rfl
  · rename_i h
    rw [List.getElem?_eq_none (by simpa using h)]
    rfl

theorem entryAt?_ofBatch (hindex : positions[index]? = some pos) (hk : k < planeCount)
    (hr : row < side) (hc : column < side) : entryAt? (ofBatch positions) index k row column =
      some (if (plane pos ⟨k, hk⟩).has (.ofRowColumn row column hr hc) then .one else .zero) := by
  unfold entryAt? ofBatch
  rw [dif_pos hr, dif_pos hc, List.getElem?_map, hindex]
  show ((planes pos)[k]?).map _ = _
  rw [getElem?_planes, dif_pos hk]
  rfl

theorem isSome_entryAt?_ofBatch (hindex : positions[index]? = some pos) (k row column : Nat) :
    (entryAt? (ofBatch positions) index k row column).isSome = true ↔
      k < planeCount ∧ row < side ∧ column < side := by
  unfold entryAt? ofBatch
  rw [List.getElem?_map, hindex]
  by_cases hr : row < side
  · by_cases hc : column < side
    · rw [dif_pos hr, dif_pos hc, and_iff_left ⟨hr, hc⟩]
      show (((planes pos)[k]?).map _).isSome = true ↔ _
      rw [getElem?_planes, Option.isSome_map, Option.isSome_dite]
    · simp [hr, hc]
  · simp [hr]

/-! ## What the entries say -/

theorem lt_planeCount {age : Nat} (hage : age ≤ historyLength) : 2 * age + 2 < planeCount := by
  show 2 * age + 2 < 2 * (historyLength + 1) + 1
  omega

section Played

variable {komi : Single} {moves : List Move} {age bit : Nat}

/-- A plane for the board so many moves ago marks the stones of one side on it. -/
theorem plane_board (hplays : (initial komi).playAll moves = .ok pos) (hage : age ≤ historyLength)
    (hbit : bit < 2) (hk : 2 * age + bit < planeCount) (p : Point) :
    (plane pos ⟨2 * age + bit, hk⟩).has p = true ↔ (initial komi).stoneAgo? moves age p =
      some (if bit = 0 then pos.toPlay else pos.toPlay.other) := by
  have hlast := lt_planeCount hage
  have hhalf : (2 * age + bit) / 2 = age := by omega
  have hrest : (2 * age + bit) % 2 = bit := by omega
  have hboard : 2 * age + bit + 1 ≠ planeCount := by omega
  rw [plane, PointSet.has_ofPred, if_neg hboard]
  simp only [hhalf, hrest, boardAt?_playAll hplays age hage]
  rw [beq_iff_eq, ← getElem_boardAgo?]
  rfl

theorem plane_turn (pos : Position) (hk : planeCount - 1 < planeCount) (p : Point) :
    (plane pos ⟨planeCount - 1, hk⟩).has p = true ↔ pos.toPlay = .black := by
  rw [plane, PointSet.has_ofPred]
  exact beq_iff_eq

theorem entryAt?_board (hindex : positions[index]? = some pos)
    (hplays : (initial komi).playAll moves = .ok pos) (hage : age ≤ historyLength) (hbit : bit < 2)
    (hr : row < side) (hc : column < side) :
    entryAt? (ofBatch positions) index (2 * age + bit) row column =
      some (if (initial komi).stoneAgo? moves age (.ofRowColumn row column hr hc) =
        some (if bit = 0 then pos.toPlay else pos.toPlay.other) then .one else .zero) := by
  have hlast := lt_planeCount hage
  rw [entryAt?_ofBatch hindex (by omega) hr hc]
  exact congrArg some (if_congr (plane_board hplays hage hbit _ _) rfl rfl)

/-- The input for a position that moves from the empty board led to shows these moves. -/
theorem shows_ofBatch (hindex : positions[index]? = some pos)
    (hplays : (initial komi).playAll moves = .ok pos) :
    Shows (entryAt? (ofBatch positions) index) (initial komi) moves pos.toPlay where
  own _ hage _ _ hr hc := entryAt?_board hindex hplays hage Nat.two_pos hr hc
  opponents _ hage _ _ hr hc := entryAt?_board hindex hplays hage Nat.one_lt_two hr hc
  early age hage hearly row hr column hc := by
    have hnone : ∀ bit < 2,
        entryAt? (ofBatch positions) index (2 * age + bit) row column = some .zero := by
      intro bit hbit
      rw [entryAt?_board hindex hplays hage hbit hr hc, stoneAgo?_of_lt hearly, if_neg nofun]
    exact ⟨hnone 0 (by decide), hnone 1 (by decide)⟩
  turn row hr column hc := by
    rw [entryAt?_ofBatch hindex (by decide) hr hc]
    exact congrArg some (if_congr (plane_turn pos _ _) rfl rfl)
  shape := isSome_entryAt?_ofBatch hindex

end Played

/-! ## Equal inputs -/

theorem one_or_zero_inj {P Q : Prop} [Decidable P] [Decidable Q]
    (h : some (if P then Single.one else .zero) = some (if Q then Single.one else .zero)) :
    P ↔ Q := by
  by_cases hp : P <;> by_cases hq : Q <;> simp_all [Single.one, Single.zero]

namespace Shows

variable {entry : Nat → Nat → Nat → Option Single} {start start' : Position}
  {moves moves' : List Move} {toPlay toPlay' : Color} {age : Nat}

theorem toPlay_eq (h : Shows entry start moves toPlay) (h' : Shows entry start' moves' toPlay') :
    toPlay = toPlay' := by
  have hblack := one_or_zero_inj
    ((h.turn 0 (by decide) 0 (by decide)).symm.trans (h'.turn 0 (by decide) 0 (by decide)))
  cases toPlay <;> cases toPlay' <;> simp_all

/-- The same entries show the same stones. -/
theorem stoneAgo?_eq (h : Shows entry start moves toPlay) (h' : Shows entry start' moves' toPlay)
    (hage : age ≤ historyLength) (p : Point) :
    start.stoneAgo? moves age p = start'.stoneAgo? moves' age p := by
  have hown := one_or_zero_inj ((h.own age hage p.row p.column p.row_lt p.column_lt).symm.trans
    (h'.own age hage p.row p.column p.row_lt p.column_lt))
  have hopponents := one_or_zero_inj
    ((h.opponents age hage p.row p.column p.row_lt p.column_lt).symm.trans
      (h'.opponents age hage p.row p.column p.row_lt p.column_lt))
  rw [Point.ofRowColumn_row_column] at hown hopponents
  refine Option.ext fun color => ?_
  by_cases hcolor : color = toPlay
  · rw [hcolor]
    exact hown
  · rw [Color.eq_other_of_ne hcolor]
    exact hopponents

theorem board_eq (h : Shows entry start moves toPlay) (h' : Shows entry start' moves' toPlay)
    (hage : age ≤ historyLength) : (start.boardAgo? moves age).getD .blank =
      (start'.boardAgo? moves' age).getD .blank := by
  refine Board.ext_points fun p => ?_
  rw [getElem_boardAgo?, getElem_boardAgo?]
  exact h.stoneAgo?_eq h' hage p

end Shows

/-- At the index of the batch is the position that these moves led to from the empty board. -/
def Led (positions : List Position) (index : Nat) (komi : Single) (moves : List Move)
    (pos : Position) : Prop :=
  positions[index]? = some pos ∧ (initial komi).playAll moves = .ok pos

/-- The input for a batch shows the moves that led to its positions: the entries for a position are
one exactly where the side to play, or the opponent, had a stone so many moves ago, or black is to
play. Positions with equal entries agree in the side to play and in the last eight boards, where a
board before the first move is blank. -/
theorem planes_show_history :
    (∀ positions index komi moves pos, Led positions index komi moves pos →
      Shows (entryAt? (ofBatch positions) index) (initial komi) moves pos.toPlay) ∧
    ∀ positions index komi moves pos positions' index' komi' moves' pos',
      Led positions index komi moves pos → Led positions' index' komi' moves' pos' →
        (∀ k row column, entryAt? (ofBatch positions) index k row column =
          entryAt? (ofBatch positions') index' k row column) →
            pos.toPlay = pos'.toPlay ∧ ∀ age ≤ historyLength,
              ((initial komi).boardAgo? moves age).getD .blank =
                ((initial komi').boardAgo? moves' age).getD .blank := by
  refine ⟨fun positions index komi moves pos h => shows_ofBatch h.1 h.2, ?_⟩
  intro positions index komi moves pos positions' index' komi' moves' pos' h h' heq
  have hentries : entryAt? (ofBatch positions) index = entryAt? (ofBatch positions') index' :=
    funext fun k => funext fun row => funext fun column => heq k row column
  have hshows := shows_ofBatch h.1 h.2
  have hshows' := shows_ofBatch h'.1 h'.2
  rw [← hentries] at hshows'
  have hturn := hshows.toPlay_eq hshows'
  rw [← hturn] at hshows'
  exact ⟨hturn, fun age hage => hshows.board_eq hshows' hage⟩

/-- A stone in the first corner. -/
def oneStone : Position := (initial (.ofInt 7)).afterStone 0

/-- A stone in the first corner and one in the last. -/
def twoStones : Position := oneStone.afterStone 80

theorem play_oneStone : (initial (.ofInt 7)).play (.stone 0) = .ok oneStone := by
  have hfree : ((initial (.ofInt 7)).board.put .black 0)[(1 : Point)] = none := by decide +kernel
  have hlib := Board.libertyCount_of_next (p := 0) (by decide +kernel) hfree
  exact (@play_stone (initial (.ofInt 7)) 0 rfl (getElem_blank 0) nofun).trans (if_neg hlib)

theorem play_twoStones : oneStone.play (.stone 80) = .ok twoStones := by
  have hko : oneStone.ko ≠ some 80 := by decide +kernel
  have hfree : (oneStone.board.put .white 80)[(79 : Point)] = none := by decide +kernel
  have hlib := Board.libertyCount_of_next (p := 80) (by decide +kernel) hfree
  exact (play_stone rfl (by decide +kernel) hko).trans (if_neg hlib)

/-- Two stones in opposite corners, of which one stood already a move ago; and two passes, after
which the input is that for the empty board. -/
theorem planes_show_two_stones :
    Led [initial (.ofInt 7), twoStones] 1 (.ofInt 7) [.stone 0, .stone 80] twoStones ∧
      entryAt? (ofBatch [initial (.ofInt 7), twoStones]) 1 0 0 0 = some .one ∧
      entryAt? (ofBatch [initial (.ofInt 7), twoStones]) 1 1 8 8 = some .one ∧
      entryAt? (ofBatch [initial (.ofInt 7), twoStones]) 1 2 0 0 = some .one ∧
      entryAt? (ofBatch [initial (.ofInt 7), twoStones]) 1 3 8 8 = some .zero ∧
      entryAt? (ofBatch [initial (.ofInt 7), twoStones]) 1 16 4 4 = some .one ∧
    Led [initial (.ofInt 7)] 0 (.ofInt 7) [] (initial (.ofInt 7)) ∧
      ∃ pos, Led [pos] 0 (.ofInt 7) [.pass, .pass] pos ∧ ∀ age ≤ historyLength,
        ((initial (.ofInt 7)).boardAgo? [] age).getD .blank =
          ((initial (.ofInt 7)).boardAgo? [.pass, .pass] age).getD .blank := by
  have hone : (initial (.ofInt 7)).playAll [.stone 0] = .ok oneStone := by
    rw [playAll_cons, play_oneStone]
    rfl
  have htwo : (initial (.ofInt 7)).playAll ([.stone 0] ++ [.stone 80]) = .ok twoStones :=
    playAll_concat hone play_twoStones
  have hnow := stoneAgo?_of_some (boardAgo?_zero htwo)
  have hbefore := stoneAgo?_of_some
    ((boardAgo?_concat _ [.stone 0] (.stone 80) 0).trans (boardAgo?_zero hone))
  have hled : Led [initial (.ofInt 7), twoStones] 1 (.ofInt 7) [.stone 0, .stone 80] twoStones :=
    ⟨rfl, htwo⟩
  have hshows := planes_show_history.1 _ _ _ _ _ hled
  have hnone : Led [initial (.ofInt 7)] 0 (.ofInt 7) [] (initial (.ofInt 7)) := ⟨rfl, rfl⟩
  have hpasses : Led [(initial (.ofInt 7)).afterPass.afterPass] 0 (.ofInt 7) [.pass, .pass]
    (initial (.ofInt 7)).afterPass.afterPass := ⟨rfl, rfl⟩
  have hsame := planes_show_history.2 _ _ _ _ _ _ _ _ _ _ hnone hpasses fun _ _ _ => rfl
  refine ⟨hled, ?_, ?_, ?_, ?_, ?_, hnone, _, hpasses, hsame.2⟩
  · refine (hshows.own 0 (by decide) 0 0 (by decide) (by decide)).trans (congrArg some (if_pos ?_))
    exact (hnow 0).trans (by decide +kernel)
  · refine (hshows.opponents 0 (by decide) 8 8 (by decide) (by decide)).trans
      (congrArg some (if_pos ?_))
    exact (hnow 80).trans (by decide +kernel)
  · refine (hshows.own 1 (by decide) 0 0 (by decide) (by decide)).trans (congrArg some (if_pos ?_))
    exact (hbefore 0).trans (by decide +kernel)
  · refine (hshows.opponents 1 (by decide) 8 8 (by decide) (by decide)).trans
      (congrArg some (if_neg ?_))
    exact fun h => absurd ((hbefore 80).symm.trans h) (by decide +kernel)
  · exact hshows.turn 4 (by decide) 4 (by decide)

end Features

end Goban
