import Goban.Proofs.Rules.Plays

/-!
# Legal moves are the moves that can be played

`isLegal` foresees suicide from the chains around a point, without putting the stone. Its three
tests are enough for the stone to have a liberty in the end (`Board.libertyCount_put_of_own`,
`Board.libertyCount_put_of_other`), and one of them holds if it has one
(`Board.exists_of_libertyCount_put`). So what is called legal is what is not refused
(`Position.legal_exact`), on any board, also on one with chains that have no liberty: a chain beside
an empty point has that point.
-/

namespace Goban

namespace Board

variable {b : Board} {p q s : Point} {color : Color}

/-- A stone beside a chain of its color with several liberties has a liberty. -/
theorem libertyCount_put_of_own (hq : q ∈ p.neighbours) (hcolor : b[q] = some color)
    (hlib : 1 < b.libertyCount q) : (b.put color p).libertyCount p ≠ 0 := by
  rw [libertyCount_eq_count] at hlib
  obtain ⟨l, hl, hlp⟩ := PointSet.exists_ne_of_one_lt_count hlib p
  obtain ⟨hempty, s, hs, hqs⟩ := has_liberties.mp hl
  have hown : ∀ x : Point, b[x] = some color → (b.put color p)[x] = some color :=
    fun x hx => put_eq_own.mpr (.inr hx)
  have hstone : ((b.put color p).chain q).has s = true := by
    apply has_chain_mono hqs
    intro x hx
    rw [hown q hcolor, hown x ((getElem_of_has_chain hx).trans hcolor)]
  have hpq : ((b.put color p).chain p).has q = true := by
    apply has_chain_of_mem_neighbours (has_chain_self _ p) hq
    rw [hown q hcolor, put_self]
  exact libertyCount_ne_zero.mpr ⟨l, s, has_chain_trans hpq hstone, hs, put_eq_none hlp hempty⟩

/-- A stone beside a chain of the opponent that has no other liberty takes it. -/
theorem libertyCount_put_of_other (hp : b[p] = none) (hq : q ∈ p.neighbours)
    (hcolor : b[q] = some color.other) (hlib : b.libertyCount q = 1) :
    (b.put color p).libertyCount p ≠ 0 := by
  have hqp : q ≠ p := Point.ne_of_mem_neighbours hq
  rw [libertyCount_eq_count] at hlib
  obtain ⟨l, hl⟩ := PointSet.count_eq_one.mp hlib
  have hpl : p = l := by
    rw [← hl, has_liberties]
    exact ⟨hp, q, hq, has_chain_self b q⟩
  subst hpl
  have hplaced : (b.place color p)[q] = some color.other := by rw [place_of_ne hqp, hcolor]
  have hdies : (b.place color p).Dies color.other p q := by
    refine ⟨hq, hplaced, ?_⟩
    by_contra hne
    obtain ⟨m, s, hms⟩ := libertyCount_ne_zero.mp hne
    have hmp : m ≠ p := by
      rintro rfl
      have hempty := hms.empty
      rw [place_self] at hempty
      cases hempty
    have hstone : (b.chain q).has s = true := by
      apply has_chain_mono hms.stone
      intro x hx
      have hx := (getElem_of_has_chain hx).trans hplaced
      have hxp : x ≠ p := by
        rintro rfl
        rw [place_self] at hx
        exact Color.ne_other _ (Option.some.inj hx)
      rw [place_of_ne hxp] at hx
      rw [hx, hcolor]
    have hempty : b[m] = none := by rw [← place_of_ne hmp, hms.empty]
    exact hmp ((hl m).mp (has_liberties.mpr ⟨hempty, s, hms.next, hstone⟩))
  have hcaught : (b.caught color p).has q = true :=
    has_withoutLiberty.mpr ⟨q, hdies, has_chain_self _ q⟩
  exact libertyCount_of_next hq (put_of_caught hcaught)

/-- The stones of the chain that a new stone joins belong to chains beside it. -/
theorem has_chain_place_self (h : ((b.place color p).chain p).has s = true) :
    s = p ∨ ∃ q ∈ p.neighbours, b[q] = some color ∧ (b.chain q).has s = true := by
  induction has_chain.mp h with
  | refl => exact .inl rfl
  | @tail x y hway hstep ih =>
    have hy : (b.place color p)[y] = some color := by simpa [place_self] using hstep.2
    by_cases hyp : y = p
    · exact .inl hyp
    · rw [place_of_ne hyp] at hy
      rcases ih (has_chain.mpr hway) with rfl | ⟨q, hq, hcolor, hx⟩
      · exact .inr ⟨y, hstep.1, hy, has_chain_self b y⟩
      · exact .inr ⟨q, hq, hcolor, has_chain_of_mem_neighbours hx hstep.1 (hy.trans hcolor.symm)⟩

/-- A stone of the opponent beside an empty point is caught only if that was its last liberty. -/
theorem libertyCount_of_dies (hp : b[p] = none) (h : (b.place color p).Dies color.other p q) :
    b[q] = some color.other ∧ b.libertyCount q = 1 := by
  have hqp : q ≠ p := Point.ne_of_mem_neighbours h.next
  have hq : b[q] = some color.other := (place_of_ne hqp).symm.trans h.stone
  refine ⟨hq, ?_⟩
  rw [libertyCount_eq_count]
  refine PointSet.count_eq_one.mpr ⟨p, fun l => ?_⟩
  rw [has_liberties]
  constructor
  · rintro ⟨hl, s, hsl, hs⟩
    by_contra hlp
    exact h.no_liberty l s ⟨has_chain_place hp hq hs, hsl, (place_of_ne hlp).trans hl⟩
  · rintro rfl
    exact ⟨hp, q, h.next, has_chain_self b q⟩

/-- A stone that has a liberty in the end stands beside an empty point, beside a chain of its own
color with another liberty, or beside a chain of the opponent that loses its last one. -/
theorem exists_of_libertyCount_put (hp : b[p] = none)
    (h : (b.put color p).libertyCount p ≠ 0) : ∃ q ∈ p.neighbours, b[q] = none ∨
      b[q] = some color ∧ 1 < b.libertyCount q ∨
        b[q] = some color.other ∧ b.libertyCount q = 1 := by
  by_cases hcaught : ∃ q, (b.caught color p).has q = true
  · obtain ⟨q, hq⟩ := hcaught
    obtain ⟨n, hn, -⟩ := has_withoutLiberty.mp hq
    exact ⟨n, hn.next, .inr (.inr (libertyCount_of_dies hp hn))⟩
  · -- Nothing is caught, so the stone is all that the board gains.
    have hput : b.put color p = b.place color p := by
      apply ext_points
      intro q
      rw [getElem_put, if_neg fun hq => hcaught ⟨q, hq⟩]
    rw [hput] at h
    obtain ⟨l, s, hls⟩ := libertyCount_ne_zero.mp h
    have hlp : l ≠ p := by
      rintro rfl
      have hempty := hls.empty
      rw [place_self] at hempty
      cases hempty
    have hl : b[l] = none := (place_of_ne hlp).symm.trans hls.empty
    rcases has_chain_place_self hls.stone with rfl | ⟨q, hq, hcolor, hs⟩
    · exact ⟨l, Point.mem_neighbours_comm.mp hls.next, .inl hl⟩
    · refine ⟨q, hq, .inr (.inl ⟨hcolor, ?_⟩)⟩
      have hfree : ∀ x, x = l ∨ x = p → (b.liberties (b.chain q)).has x = true := by
        rintro x (rfl | rfl)
        · exact has_liberties.mpr ⟨hl, s, hls.next, hs⟩
        · exact has_liberties.mpr ⟨hp, q, hq, has_chain_self b q⟩
      rw [libertyCount_eq_count]
      exact PointSet.one_lt_count (hfree l (.inl rfl)) (hfree p (.inr rfl)) hlp

end Board

namespace Position

variable {pos : Position} {p : Point} {m : Move}

theorem libertyCount_of_not_suicide (hp : pos.board[p] = none) (h : pos.isSuicide p = false) :
    (pos.board.put pos.toPlay p).libertyCount p ≠ 0 := by
  unfold isSuicide at h
  rw [List.all_eq_false] at h
  obtain ⟨q, hq, hnot⟩ := h
  split at hnot
  · rename_i hempty
    exact Board.libertyCount_put_of_empty hq hempty
  · rename_i color hcolor
    split at hnot
    · rename_i hown
      subst hown
      exact Board.libertyCount_put_of_own hq hcolor (by simpa using hnot)
    · rename_i hother
      rw [Color.eq_other_of_ne hother] at hcolor
      exact Board.libertyCount_put_of_other hp hq hcolor (by simpa using hnot)

theorem not_suicide_of_libertyCount (hp : pos.board[p] = none)
    (h : (pos.board.put pos.toPlay p).libertyCount p ≠ 0) : pos.isSuicide p = false := by
  obtain ⟨q, hq, hcases⟩ := Board.exists_of_libertyCount_put hp h
  unfold isSuicide
  rw [List.all_eq_false]
  refine ⟨q, hq, ?_⟩
  rcases hcases with hempty | ⟨hcolor, hlib⟩ | ⟨hcolor, hlib⟩
  · simp [hempty]
  · simp [hcolor, hlib]
  · simp [hcolor, hlib]

/-! ## Legality -/

/-- A legal move is not refused. -/
theorem exists_play_of_isLegal (h : pos.isLegal m = true) : ∃ next, pos.play m = .ok next := by
  cases m with
  | resign => cases h
  | pass =>
    have hover : pos.isOver = false := by simpa [isLegal] using h
    exact ⟨pos.afterPass, by rw [play_pass, hover, if_neg Bool.false_ne_true]⟩
  | stone p =>
    simp only [isLegal, Bool.and_eq_true, Bool.not_eq_true', Option.isNone_iff_eq_none,
      bne_iff_ne] at h
    obtain ⟨⟨⟨hover, hp⟩, hko⟩, hsuicide⟩ := h
    exact exists_play_stone hover hp hko (libertyCount_of_not_suicide hp hsuicide)

/-- A move that is not refused is legal. -/
theorem isLegal_of_play {next : Position} (h : pos.play m = .ok next) : pos.isLegal m = true := by
  cases m with
  | resign => cases h
  | pass =>
    rw [play_pass] at h
    split at h
    · cases h
    · rename_i hover
      simpa [isLegal] using hover
  | stone p =>
    obtain ⟨hp, hko, hlib, -⟩ := play_stone_eq_ok h
    simp [isLegal, isOver_of_play h, hp, hko, not_suicide_of_libertyCount hp hlib]

theorem isLegal_iff : pos.isLegal m = true ↔ ∃ next, pos.play m = .ok next :=
  ⟨exists_play_of_isLegal, fun ⟨_, hnext⟩ => isLegal_of_play hnext⟩

/-! ## The list of moves -/

theorem isLegal_of_mem_legalMoves (h : m ∈ pos.legalMoves) : pos.isLegal m = true := by
  unfold legalMoves at h
  split at h
  · cases h
  · rename_i hover
    rcases List.mem_append.mp h with h | h
    · exact (List.mem_filter.mp h).2
    · rw [List.mem_singleton.mp h]
      simpa [isLegal] using hover

theorem exists_play_of_mem_legalMoves (h : m ∈ pos.legalMoves) : ∃ next, pos.play m = .ok next :=
  exists_play_of_isLegal (isLegal_of_mem_legalMoves h)

theorem mem_legalMoves_of_isLegal (h : pos.isLegal m = true) : m ∈ pos.legalMoves := by
  cases m with
  | resign => cases h
  | pass =>
    have hover : pos.isOver = false := by simpa [isLegal] using h
    simp [legalMoves, hover]
  | stone p =>
    have hover : pos.isOver = false := by
      simp only [isLegal, Bool.and_eq_true, Bool.not_eq_true'] at h
      exact h.1.1.1
    simp [legalMoves, hover, h]

/-- The moves of a position stand in the order of their numbers. -/
theorem legalMoves_sorted (pos : Position) : (pos.legalMoves.map Move.index).Pairwise (· < ·) := by
  unfold legalMoves
  split
  · exact .nil
  · rw [List.map_append, List.pairwise_append]
    refine ⟨?_, List.pairwise_singleton _ _, ?_⟩
    · have hall : ((Point.all.map Move.stone).map Move.index).Pairwise (· < ·) := by
        rw [List.map_map]
        exact List.pairwise_map.mpr (List.pairwise_lt_finRange pointCount)
      exact hall.sublist (List.filter_sublist.map Move.index)
    · intro i hi j hj
      obtain ⟨m, hm, rfl⟩ := List.mem_map.mp hi
      obtain ⟨p, -, rfl⟩ := List.mem_map.mp (List.mem_filter.mp hm).1
      rw [List.mem_singleton.mp hj]
      exact p.isLt

theorem legalMoves_of_over (hover : pos.isOver = true) : pos.legalMoves = [] := by
  rw [legalMoves, if_pos hover]

theorem legalMoves_ne_nil (h : pos.isOver = false) : pos.legalMoves ≠ [] := by
  rw [legalMoves, h, if_neg Bool.false_ne_true]
  simp

theorem getLast?_legalMoves (hover : pos.isOver = false) :
    pos.legalMoves.getLast? = some .pass := by
  rw [legalMoves, hover, if_neg Bool.false_ne_true, List.getLast?_concat]

/-- A move is called legal exactly if it can be played, on any board. The legal moves are listed
each once, in the order of their numbers with pass at the end, and only a game that is over has
none. -/
theorem legal_exact (pos : Position) :
    (∀ m, pos.isLegal m = true ↔ ∃ next, pos.play m = .ok next) ∧
      (∀ m, m ∈ pos.legalMoves ↔ ∃ next, pos.play m = .ok next) ∧
      (pos.legalMoves.map Move.index).Pairwise (· < ·) ∧
      (pos.legalMoves ≠ [] → pos.legalMoves.getLast? = some .pass) ∧
      (pos.legalMoves = [] ↔ 2 ≤ pos.passes) := by
  have hpasses : pos.isOver = true ↔ 2 ≤ pos.passes := decide_eq_true_iff
  refine ⟨fun m => isLegal_iff, ?_, pos.legalMoves_sorted, ?_, ?_⟩
  · intro m
    rw [← isLegal_iff]
    exact ⟨isLegal_of_mem_legalMoves, mem_legalMoves_of_isLegal⟩
  · intro hsome
    refine getLast?_legalMoves ((Bool.not_eq_true _).mp fun hover => ?_)
    exact hsome (legalMoves_of_over hover)
  · rw [← hpasses]
    refine ⟨fun hnone => ?_, legalMoves_of_over⟩
    by_contra hover
    exact legalMoves_ne_nil ((Bool.not_eq_true _).mp hover) hnone

end Position

end Goban
