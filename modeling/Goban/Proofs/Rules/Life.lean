import Goban.Proofs.Rules.Plays

/-!
# Life without conditions lasts

Chains that `Board.life` finds stay on the board whatever the opponent plays, if their owner only
passes (`Position.life_lasts`). What `life` returns is *secure*: no chain or region could be
removed from it. From a secure collection on, a few things stay true while one side passes
(`Board.Stands`): the chains stand, the passing side gets no stone, and every region keeps an empty
point. Two vital regions are never filled by one move, so a chain with two of them has a liberty
left.
-/

namespace Goban

namespace Board

variable {b now : Board} {color : Color} {chains regions : List PointSet} {p q : Point}

/-! ## The elimination -/

theorem lifeFrom_sublist (b : Board) (color : Color) (chains regions : List PointSet) :
    (b.lifeFrom color chains regions).1.Sublist chains ∧
      (b.lifeFrom color chains regions).2.Sublist regions := by
  induction chains, regions using lifeFrom.induct b color with
  | case1 chains regions fewer kept hlt ih =>
    rw [lifeFrom, if_pos hlt]
    exact ⟨ih.1.trans List.filter_sublist, ih.2.trans List.filter_sublist⟩
  | case2 chains regions fewer kept hlt =>
    rw [lifeFrom, if_neg hlt]
    exact ⟨List.filter_sublist, List.filter_sublist⟩

/-- In the end nothing more can be removed. -/
theorem lifeFrom_stable (b : Board) (color : Color) (chains regions : List PointSet) :
    b.keepChains (b.lifeFrom color chains regions).1 (b.lifeFrom color chains regions).2 =
        (b.lifeFrom color chains regions).1 ∧
      b.keepRegions color (b.lifeFrom color chains regions).1 (b.lifeFrom color chains regions).2 =
        (b.lifeFrom color chains regions).2 := by
  induction chains, regions using lifeFrom.induct b color with
  | case1 chains regions fewer kept hlt ih =>
    rw [lifeFrom, if_pos hlt]
    exact ih
  | case2 chains regions fewer kept hlt =>
    rw [lifeFrom, if_neg hlt]
    have hf : fewer.length ≤ chains.length := List.length_filter_le _ _
    have hk : kept.length ≤ regions.length := List.length_filter_le _ _
    have hsub : fewer.Sublist chains := List.filter_sublist
    have hsub' : kept.Sublist regions := List.filter_sublist
    have hchains : fewer = chains := hsub.eq_of_length (by omega)
    have hregions : kept = regions := hsub'.eq_of_length (by omega)
    constructor
    · show b.keepChains fewer kept = fewer
      rw [hchains, hregions]
      exact hchains
    · show b.keepRegions color fewer kept = kept
      rw [hregions]
      exact hregions

/-! ## Secure collections -/

/-- Chains with two vital regions each, and regions that only these chains enclose. -/
structure Secure (b : Board) (color : Color) (chains regions : List PointSet) : Prop where
  chain : ∀ c ∈ chains, ∃ p, b[p] = some color ∧ c = b.chain p
  region : ∀ r ∈ regions, ∃ p, b[p] ≠ some color ∧
    r = PointSet.flood (fun q => b[q] != some color) p
  apart : regions.Pairwise PointSet.Apart
  vital : ∀ c ∈ chains, 2 ≤ (regions.filter fun r => b.isVital r c).length
  enclosed : ∀ r ∈ regions, b.isEnclosed color chains r = true

theorem secure_life (b : Board) (color : Color) :
    b.Secure color (b.life color).1 (b.life color).2 := by
  obtain ⟨hchains, hregions⟩ := b.lifeFrom_sublist color (b.chains color)
    ((b.regions color).filter (b.borders · color))
  obtain ⟨hvital, henclosed⟩ := b.lifeFrom_stable color (b.chains color)
    ((b.regions color).filter (b.borders · color))
  have hall := hregions.trans List.filter_sublist
  refine ⟨fun c hc => ?_, fun r hr => ?_, ?_, fun c hc => ?_, fun r hr => ?_⟩
  · obtain ⟨p, hp, rfl⟩ := PointSet.mem_components.mp (hchains.subset hc)
    have hp : b[p] = some color := by simpa using hp
    exact ⟨p, hp, PointSet.flood_congr (fun q => by rw [hp]) p⟩
  · obtain ⟨p, hp, rfl⟩ := PointSet.mem_components.mp (hall.subset hr)
    exact ⟨p, by simpa using hp, rfl⟩
  · exact (PointSet.components_apart _).sublist hall
  · have hmem : c ∈ b.keepChains (b.life color).1 (b.life color).2 := hvital.symm ▸ hc
    simpa using (List.mem_filter.mp hmem).2
  · have hmem : r ∈ b.keepRegions color (b.life color).1 (b.life color).2 := henclosed.symm ▸ hr
    exact (List.mem_filter.mp hmem).2

namespace Secure

variable {c r : PointSet}

theorem ne_of_has_region (hs : b.Secure color chains regions) (hr : r ∈ regions)
    (hp : r.has p = true) : b[p] ≠ some color := by
  obtain ⟨start, hstart, rfl⟩ := hs.region r hr
  simpa using PointSet.inside_of_has_flood (by simpa using hstart) hp

theorem eq_of_has_chain (hs : b.Secure color chains regions) (hc : c ∈ chains)
    (hp : c.has p = true) :
    b[p] = some color ∧ c = b.chain p := by
  obtain ⟨start, hstart, rfl⟩ := hs.chain c hc
  exact ⟨(getElem_of_has_chain hp).trans hstart, (chain_eq hp).symm⟩

/-- Next to a region there are only points of it, and stones of the chains. -/
theorem has_or_of_mem_neighbours (hs : b.Secure color chains regions) (hr : r ∈ regions)
    (hp : r.has p = true) (hq : q ∈ p.neighbours) :
    r.has q = true ∨ ∃ c ∈ chains, c.has q = true := by
  by_cases hcolor : b[q] = some color
  · right
    have henclosed := PointSet.all_eq_true.mp (hs.enclosed r hr) p hp
    simpa [hcolor] using List.all_eq_true.mp henclosed q hq
  · left
    obtain ⟨start, -, rfl⟩ := hs.region r hr
    exact PointSet.has_flood.mpr ((PointSet.has_flood.mp hp).step hq (by simpa using hcolor))

/-- Of the vital regions of a chain one lies elsewhere than a point. -/
theorem exists_vital (hs : b.Secure color chains regions) (hc : c ∈ chains) (p : Point) :
    ∃ r ∈ regions, b.isVital r c = true ∧ r.has p = false := by
  have hvital := hs.vital c hc
  have hapart := hs.apart.sublist (List.filter_sublist (p := fun r => b.isVital r c))
  have hmem : ∀ r ∈ regions.filter fun r => b.isVital r c, r ∈ regions ∧ b.isVital r c = true :=
    fun r hr => List.mem_filter.mp hr
  generalize regions.filter (fun r => b.isVital r c) = vital at *
  match vital, hvital with
  | first :: second :: rest, _ =>
    cases hfirst : first.has p
    · exact ⟨first, (hmem first List.mem_cons_self).1, (hmem first List.mem_cons_self).2, hfirst⟩
    · have hsecond : second ∈ first :: second :: rest := List.mem_cons_of_mem _ List.mem_cons_self
      refine ⟨second, (hmem second hsecond).1, (hmem second hsecond).2, ?_⟩
      by_contra hno
      exact (List.pairwise_cons.mp hapart).1 second List.mem_cons_self p
        ⟨hfirst, (Bool.not_eq_false _).mp hno⟩

theorem next_of_isVital (hv : b.isVital r c = true) (hp : r.has p = true) (he : b[p] = none) :
    ∃ q ∈ p.neighbours, c.has q = true := by
  unfold isVital at hv
  have hall := PointSet.all_eq_true.mp (Bool.and_eq_true_iff.mp hv).2 p hp
  simpa [he] using hall

end Secure

theorem has_foldl_union (sets : List PointSet) (s : PointSet) :
    (sets.foldl .union s).has p = true ↔ s.has p = true ∨ ∃ t ∈ sets, t.has p = true := by
  induction sets generalizing s with
  | nil => simp
  | cons t rest ih =>
    rw [List.foldl_cons, ih, PointSet.has_union, Bool.or_eq_true, or_assoc]
    simp only [List.mem_cons, exists_eq_or_imp]

theorem has_settled : (b.settled color).has p = true ↔
    (∃ c ∈ (b.life color).1, c.has p = true) ∨
      ∃ r ∈ (b.life color).2, (r.all fun q => b[q].isNone) = true ∧ r.has p = true := by
  unfold settled
  rw [has_foldl_union]
  simp only [PointSet.has_empty, List.mem_append, List.mem_filter, or_and_right, exists_or,
    and_assoc, Bool.false_eq_true, false_or]

/-- The settled stones of a color are those of the chains found alive. -/
theorem chain_mem_life (hp : b[p] = some color) (hsettled : (b.settled color).has p = true) :
    b.chain p ∈ (b.life color).1 := by
  have hs := b.secure_life color
  rcases has_settled.mp hsettled with ⟨c, hc, hcp⟩ | ⟨r, hr, -, hrp⟩
  · exact (hs.eq_of_has_chain hc hcp).2 ▸ hc
  · exact absurd hp (hs.ne_of_has_region hr hrp)

/-- Where every chain has a liberty, every region has an empty point. -/
theorem Breathes.exists_empty (h : b.Breathes) (hp : b[p] ≠ some color) :
    ∃ l, (PointSet.flood (fun q => b[q] != some color) p).has l = true ∧ b[l] = none := by
  by_cases he : b[p] = none
  · exact ⟨p, PointSet.has_flood_self _ p, he⟩
  · obtain ⟨l, s, hls⟩ := libertyCount_ne_zero.mp (h p he)
    have hstone : PointSet.Linked (fun q => b[q] != some color) p s :=
      (has_chain.mp hls.stone).mono fun q hq _ => by
        rw [getElem_of_has_chain (has_chain.mpr hq)]
        simpa using hp
    refine ⟨l, PointSet.has_flood.mpr (hstone.step ?_ ?_), hls.empty⟩
    · exact Point.mem_neighbours_comm.mp hls.next
    · simp [hls.empty]

/-! ## While one side passes -/

/-- How a board differs from the one on which the collection was found: the chains stand, their
owner has no new stone, and the regions have no new empty point, but still one. -/
structure Stands (b now : Board) (color : Color) (chains regions : List PointSet) : Prop where
  alive : ∀ c ∈ chains, ∀ p, c.has p = true → now[p] = some color
  own : ∀ p : Point, now[p] = some color → b[p] = some color
  filled : ∀ r ∈ regions, ∀ p, r.has p = true → now[p] = none → b[p] = none
  room : ∀ r ∈ regions, ∃ p, r.has p = true ∧ now[p] = none

namespace Stands

variable {c r : PointSet}

theorem start (hs : b.Secure color chains regions) (hb : b.Breathes) :
    Stands b b color chains regions where
  alive c hc p hp := (hs.eq_of_has_chain hc hp).1
  own p hp := hp
  filled r hr p hp he := he
  room r hr := by
    obtain ⟨p, hp, rfl⟩ := hs.region r hr
    exact hb.exists_empty hp

/-- A stone next to a chain leaves it a liberty in a vital region. -/
theorem not_caught (h : Stands b now color chains regions) (hs : b.Secure color chains regions)
    (hp : now[p] = none) (hc : c ∈ chains) (hq : c.has q = true) :
    (now.caught color.other p).has q = false := by
  by_contra hcaught
  obtain ⟨n, hn, hnq⟩ := has_withoutLiberty.mp ((Bool.not_eq_false _).mp hcaught)
  obtain ⟨r, hr, hvital, hrp⟩ := hs.exists_vital hc p
  obtain ⟨l, hl, hlnone⟩ := h.room r hr
  obtain ⟨s, hsl, hcs⟩ := Secure.next_of_isVital hvital hl (h.filled r hr l hl hlnone)
  have hlp : l ≠ p := by
    rintro rfl
    rw [hrp] at hl
    cases hl
  have hstone : ∀ x, c.has x = true → (now.place color.other p)[x] = some color := fun x hx => by
    have hx := h.alive c hc x hx
    rw [place_of_ne fun e => ?_, hx]
    rw [e, hp] at hx
    cases hx
  obtain ⟨-, hchain⟩ := hs.eq_of_has_chain hc hq
  have hlinked : ((now.place color.other p).chain q).has s = true := by
    refine has_chain_mono (b := b) (hchain ▸ hcs) fun x hx => ?_
    rw [hstone x (hchain.symm ▸ hx), hstone q hq]
  have hlib := libertyCount_ne_zero.mpr ⟨l, s, hlinked, hsl, (place_of_ne hlp).trans hlnone⟩
  rw [libertyCount_eq hnq] at hlib
  exact hlib hn.breathless

/-- A stone that the opponent plays keeps all this. -/
theorem put (h : Stands b now color chains regions) (hs : b.Secure color chains regions)
    (hp : now[p] = none) (hown : (now.put color.other p).libertyCount p ≠ 0) :
    Stands b (now.put color.other p) color chains regions := by
  have halive : ∀ c ∈ chains, ∀ q, c.has q = true → (now.put color.other p)[q] = some color := by
    intro c hc q hq
    have hcolor := h.alive c hc q hq
    rw [put_of_not_caught (fun e => ?_) (h.not_caught hs hp hc hq), hcolor]
    rw [e, hp] at hcolor
    cases hcolor
  have hother : ∀ q : Point, (now.put color.other p)[q] = some color → now[q] = some color :=
    fun q hq => ((put_other_eq hp).mp hq).1
  refine ⟨halive, fun q hq => h.own q (hother q hq), fun r hr q hq hnone => ?_, fun r hr => ?_⟩
  · refine h.filled r hr q hq ?_
    by_cases hcaught : (now.caught color.other p).has q = true
    · have hcolor := getElem_of_caught hcaught
      rw [Color.other_other] at hcolor
      exact absurd (h.own q hcolor) (hs.ne_of_has_region hr hq)
    · have hqp : q ≠ p := fun e => by
        rw [e, put_self] at hnone
        cases hnone
      rwa [put_of_not_caught hqp ((Bool.not_eq_true _).mp hcaught)] at hnone
  · cases hrp : r.has p
    · obtain ⟨l, hl, hlnone⟩ := h.room r hr
      refine ⟨l, hl, put_eq_none (fun e => ?_) hlnone⟩
      rw [e, hrp] at hl
      cases hl
    · -- The stone is in the region, and so are its chain and the chain's liberties.
      have hleave : ∀ {x y}, r.has x = true → y ∈ x.neighbours →
          (now.put color.other p)[y] ≠ some color → r.has y = true := fun hx hy hne =>
        (hs.has_or_of_mem_neighbours hr hx hy).resolve_right fun ⟨c, hc, hcy⟩ =>
          hne (halive c hc _ hcy)
      obtain ⟨l, s, hls⟩ := libertyCount_ne_zero.mp hown
      have hstone : ∀ x, ((now.put color.other p).chain p).has x = true → r.has x = true := by
        intro x hx
        induction has_chain.mp hx with
        | refl => exact hrp
        | tail hy hstep ih =>
          refine hleave (ih (has_chain.mpr hy)) hstep.1 ?_
          rw [eq_of_beq hstep.2, put_self]
          exact fun e => Color.ne_other color (Option.some.inj e).symm
      refine ⟨l, hleave (hstone s hls.stone) (Point.mem_neighbours_comm.mp hls.next) ?_, hls.empty⟩
      rw [hls.empty]
      simp

end Stands

end Board

namespace Position

variable {pos mid pos' : Position} {color : Color} {m : Move} {chains regions : List PointSet}

/-- One comes from the first position to the second one by legal moves, a color only passing. -/
inductive OnlyPasses (color : Color) : Position → Position → Prop where
  | rest (pos : Position) : OnlyPasses color pos pos
  | step {pos mid pos' : Position} {m : Move} (way : OnlyPasses color pos mid)
      (passes : mid.toPlay = color → m = .pass) (plays : mid.play m = .ok pos') :
      OnlyPasses color pos pos'

theorem stands_play (hs : pos.board.Secure color chains regions)
    (h : Board.Stands pos.board mid.board color chains regions)
    (hpass : mid.toPlay = color → m = .pass) (hplay : mid.play m = .ok pos') :
    Board.Stands pos.board pos'.board color chains regions := by
  rcases play_eq_ok hplay with ⟨-, rfl⟩ | ⟨p, rfl, hp, hlib, hboard, -⟩
  · exact h
  · have hmover : mid.toPlay = color.other := by
      have hne : mid.toPlay ≠ color := fun e => by cases hpass e
      exact Color.eq_other_of_ne hne
    rw [hboard]
    rw [hmover] at hlib ⊢
    exact h.put hs hp hlib

theorem OnlyPasses.stands (h : OnlyPasses color pos pos')
    (hs : pos.board.Secure color chains regions) (hb : pos.board.Breathes) :
    Board.Stands pos.board pos'.board color chains regions := by
  induction h with
  | rest => exact .start hs hb
  | step _ hpass hplay ih => exact stands_play hs ih hpass hplay

/-- The chains that are marked as settled on a board where every chain has a liberty, as all plays
leave it, keep all their stones, whatever the opponent plays while their owner passes. -/
theorem life_lasts :
    (∀ komi moves pos, (initial komi).playAll moves = .ok pos → pos.board.Breathes) ∧
      ∀ (pos pos' : Position) (color : Color), pos.board.Breathes → OnlyPasses color pos pos' →
        ∀ p : Point, pos.board[p] = some color → (pos.board.settled color).has p = true →
          ∀ q : Point, (pos.board.chain p).has q = true → pos'.board[q] = some color := by
  refine ⟨fun komi moves pos h => breathes_playAll h, ?_⟩
  intro pos pos' color hb hway p hp hsettled q hq
  have hstands := hway.stands (pos.board.secure_life color) hb
  exact hstands.alive _ (Board.chain_mem_life hp hsettled) q hq

/-- A black chain in the corner with the eyes 0 and 2; it is white's turn. -/
def twoEyes : Position :=
  ofBoard (Vector.ofFn fun p => if p.val ∈ [1, 3, 9, 10, 11, 12] then some .black else none)
    .white 12 (.ofInt 7)

theorem getElem_twoEyes (p : Point) :
    twoEyes.board[p] = if p.val ∈ [1, 3, 9, 10, 11, 12] then some Color.black else none :=
  Vector.getElem_ofFn p.isLt

theorem breathes_twoEyes : twoEyes.board.Breathes := by
  intro p hp
  have hnext : ∀ p : Point, p.val ∈ [1, 3, 9, 10, 11, 12] →
      ∃ l ∈ p.neighbours, l.val ∉ [1, 3, 9, 10, 11, 12] := by decide +kernel
  rw [getElem_twoEyes] at hp
  obtain ⟨l, hl, hempty⟩ := hnext p (by_contra fun h => hp (if_neg h))
  refine Board.libertyCount_ne_zero.mpr ⟨l, p, Board.has_chain_self _ p, ?_, ?_⟩
  · exact Point.mem_neighbours_comm.mp hl
  · rw [getElem_twoEyes, if_neg hempty]

set_option maxRecDepth 10000 in
theorem settled_twoEyes : (twoEyes.board.settled .black).has 10 = true := by
  have halive : twoEyes.board.chain 10 ∈ (twoEyes.board.life .black).1 := by decide +kernel
  exact Board.has_settled.mpr (.inl ⟨_, halive, Board.has_chain_self _ 10⟩)

theorem life_lasts_of_two_eyes :
    (∃ first, (initial (.ofInt 7)).playAll [.stone 40] = .ok first ∧ first.board.Breathes) ∧
      twoEyes.board.Breathes ∧ twoEyes.board[(10 : Point)] = some .black ∧
      (twoEyes.board.settled .black).has 10 = true ∧
      ∃ next, twoEyes.play (.stone 20) = .ok next ∧ next.board[(10 : Point)] = some .black := by
  have hblack : twoEyes.board[(10 : Point)] = some .black := getElem_twoEyes 10
  constructor
  · have hlib : ((initial (.ofInt 7)).board.put .black 40).libertyCount 40 ≠ 0 :=
      Board.libertyCount_ne_zero.mpr ⟨41, 40, Board.has_chain_self _ 40, by decide,
        Board.put_eq_none (by decide) (getElem_blank 41)⟩
    obtain ⟨first, hfirst⟩ :=
      @exists_play_stone (initial (.ofInt 7)) 40 rfl (getElem_blank 40) nofun hlib
    have hplays : (initial (.ofInt 7)).playAll [.stone 40] = .ok first := by
      rw [playAll_cons, hfirst]
      rfl
    exact ⟨first, hplays, life_lasts.1 _ _ first hplays⟩
  · have hlib : (twoEyes.board.put .white 20).libertyCount 20 ≠ 0 :=
      Board.libertyCount_ne_zero.mpr ⟨21, 20, Board.has_chain_self _ 20, by decide,
        Board.put_eq_none (by decide) (getElem_twoEyes 21)⟩
    obtain ⟨next, hnext⟩ := @exists_play_stone twoEyes 20 rfl (getElem_twoEyes 20) nofun hlib
    have hway : OnlyPasses .black twoEyes next := .step (.rest twoEyes) nofun hnext
    exact ⟨breathes_twoEyes, hblack, settled_twoEyes, next, hnext,
      life_lasts.2 twoEyes next .black breathes_twoEyes hway 10 hblack settled_twoEyes 10
        (Board.has_chain_self _ 10)⟩

end Position

end Goban
