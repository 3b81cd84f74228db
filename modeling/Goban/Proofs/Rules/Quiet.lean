import Goban.Proofs.Rules.Life

/-!
# Quiet stones

A stone is quiet if it has an empty point beside it and leaves one to each stone of the opponent
beside it. It takes nothing (`Board.Quiet.put_eq`) and is never refused. While one side passes, the
other may put quiet stones one after the other (`Position.exists_quiet_run`).
-/

namespace Goban

namespace Board

variable {b : Board} {p q : Point} {color : Color}

/-- A stone on `p` touches an empty point, and so does each of the opponent's stones beside it. -/
structure Quiet (b : Board) (color : Color) (p : Point) : Prop where
  empty : b[p] = none
  breathes : ∃ l ∈ p.neighbours, b[l] = none
  spares : ∀ q ∈ p.neighbours, b[q] = some color.other → ∃ l ∈ q.neighbours, l ≠ p ∧ b[l] = none

instance (b : Board) (color : Color) (p : Point) : Decidable (b.Quiet color p) :=
  decidable_of_iff (b[p] = none ∧ (p.neighbours.any fun l => b[l] = none) ∧
      p.neighbours.all fun q =>
        b[q] = some color.other → q.neighbours.any fun l => l ≠ p ∧ b[l] = none) (by
    simp only [List.any_eq_true, List.all_eq_true, decide_eq_true_eq]
    exact ⟨fun h => ⟨h.1, h.2.1, h.2.2⟩, fun h => ⟨h.empty, h.breathes, h.spares⟩⟩)

namespace Quiet

theorem not_caught (h : b.Quiet color p) : (b.caught color p).has q = false := by
  by_contra hcaught
  obtain ⟨n, hn, -⟩ := has_withoutLiberty.mp ((Bool.not_eq_false _).mp hcaught)
  have hnp : n ≠ p := by
    rintro rfl
    have hcolor := hn.stone
    rw [place_self] at hcolor
    exact Color.ne_other _ (Option.some.inj hcolor)
  have hcolor := hn.stone
  rw [place_of_ne hnp] at hcolor
  obtain ⟨l, hl, hlp, hempty⟩ := h.spares n hn.next hcolor
  exact hn.ne_none hl ((place_of_ne hlp).trans hempty)

theorem put_eq (h : b.Quiet color p) : b.put color p = b.place color p := by
  apply ext_points
  intro q
  rw [getElem_put, h.not_caught, if_neg Bool.false_ne_true]

theorem libertyCount_ne_zero (h : b.Quiet color p) : (b.put color p).libertyCount p ≠ 0 := by
  obtain ⟨l, hl, hempty⟩ := h.breathes
  exact libertyCount_put_of_empty hl hempty

end Quiet

/-- Stones of a color on some points, one after the other. -/
def placeAll (b : Board) (color : Color) (ps : List Point) : Board :=
  ps.foldl (fun b p => b.place color p) b

/-- Each of the stones is quiet when its turn comes. -/
def AllQuiet (b : Board) (color : Color) : List Point → Prop
  | [] => True
  | p :: ps => b.Quiet color p ∧ AllQuiet (b.place color p) color ps

instance decidableAllQuiet (color : Color) :
    (ps : List Point) → (b : Board) → Decidable (b.AllQuiet color ps)
  | [], _ => inferInstanceAs (Decidable True)
  | p :: ps, b =>
    have := decidableAllQuiet color ps (b.place color p)
    inferInstanceAs (Decidable (b.Quiet color p ∧ AllQuiet (b.place color p) color ps))

end Board

namespace Position

variable {pos : Position} {p : Point} {ps : List Point}

theorem play_quiet (hover : pos.isOver = false) (hko : pos.ko = none)
    (h : pos.board.Quiet pos.toPlay p) : ∃ next, pos.play (.stone p) = .ok next ∧
      next.board = pos.board.place pos.toPlay p ∧ next.toPlay = pos.toPlay.other ∧
      next.passes = 0 ∧ next.ko = none := by
  have hfree : pos.ko ≠ some p := by
    rw [hko]
    exact nofun
  refine ⟨pos.afterStone p, ?_, h.put_eq, rfl, rfl, ?_⟩
  · rw [play_stone hover h.empty hfree]
    exact if_neg h.libertyCount_ne_zero
  · refine if_neg ?_
    rintro ⟨hone, -⟩
    obtain ⟨k, hk⟩ := List.exists_mem_of_length_pos (Nat.lt_of_lt_of_eq Nat.zero_lt_one hone.symm)
    have hcaught := Board.mem_taken.mp hk
    rw [h.not_caught] at hcaught
    cases hcaught

theorem OnlyPasses.trans {color : Color} {mid next : Position} (h : OnlyPasses color pos mid)
    (h' : OnlyPasses color mid next) : OnlyPasses color pos next := by
  induction h' with
  | rest => exact h
  | step _ hpass hplay ih => exact .step ih hpass hplay

/-- The moves when one side puts stones on some points and the other passes between them. -/
def againstPasses (ps : List Point) : List Move := (ps.map .stone).intersperse .pass

/-- A side may put quiet stones one after the other if the other side passes. -/
theorem exists_quiet_run (hover : pos.isOver = false) (hko : pos.ko = none)
    (h : pos.board.AllQuiet pos.toPlay (p :: ps)) :
    ∃ next, pos.playAll (againstPasses (p :: ps)) = .ok next ∧
      OnlyPasses pos.toPlay.other pos next ∧
      next.board = pos.board.placeAll pos.toPlay (p :: ps) ∧ next.toPlay = pos.toPlay.other ∧
      next.passes = 0 ∧ next.ko = none := by
  induction ps generalizing pos p with
  | nil =>
    obtain ⟨first, hfirst, hboard, hturn, hpasses, hfree⟩ := play_quiet hover hko h.1
    have hway : OnlyPasses pos.toPlay.other pos first :=
      .step (.rest pos) (fun e => absurd e (Color.ne_other _)) hfirst
    refine ⟨first, ?_, hway, hboard, hturn, hpasses, hfree⟩
    show pos.playAll [.stone p] = _
    rw [playAll_cons, hfirst]
    rfl
  | cons q rest ih =>
    obtain ⟨first, hfirst, hboard, hturn, hpasses, hfree⟩ := play_quiet hover hko h.1
    have hway : OnlyPasses pos.toPlay.other pos first :=
      .step (.rest pos) (fun e => absurd e (Color.ne_other _)) hfirst
    have hfirstOver : first.isOver = false := by rw [isOver, hpasses]; rfl
    have hpass : first.play .pass = .ok first.afterPass := by
      rw [play_pass, hfirstOver, if_neg Bool.false_ne_true]
    have hturn' : first.afterPass.toPlay = pos.toPlay := by
      show first.toPlay.other = _
      rw [hturn, Color.other_other]
    have hover' : first.afterPass.isOver = false := by
      show decide (2 ≤ first.passes + 1) = false
      rw [hpasses]
      rfl
    have hrest : first.afterPass.board.AllQuiet first.afterPass.toPlay (q :: rest) := by
      rw [hturn']
      show first.board.AllQuiet _ _
      rw [hboard]
      exact h.2
    obtain ⟨next, hplays, hways, hboards, hnext⟩ := ih hover' rfl hrest
    rw [hturn'] at hways hboards hnext
    refine ⟨next, ?_, (hway.step (fun _ => rfl) hpass).trans hways, ?_, hnext⟩
    · show pos.playAll (.stone p :: .pass :: againstPasses (q :: rest)) = _
      rw [playAll_cons, hfirst]
      show first.playAll (.pass :: againstPasses (q :: rest)) = _
      rw [playAll_cons, hpass]
      exact hplays
    · rw [hboards]
      show first.board.placeAll _ _ = _
      rw [hboard]
      rfl

end Position

end Goban
