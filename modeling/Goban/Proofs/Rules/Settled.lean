import Goban.Proofs.Rules.Quiet

/-!
# What is settled for a color

A settled region is enclosed by living chains and has no stone in it, but it may be large. A point
that is settled for a color stays free of living chains of the opponent, while the color only
passes, if its region is *cramped*: two eyes inside need two points that touch neither the enclosing
chains nor each other (`Position.settled_lasts`). In a region with more room the opponent can live.
A settled board on which this happens is reached in eleven moves (`Position.settled_overturned`).
-/

namespace Goban

namespace Point

theorem exists_smaller_neighbour {p : Point} (hp : p.val ≠ 0) :
    ∃ q ∈ p.neighbours, q.val < p.val := by
  have hside : side = 9 := rfl
  have hcount : pointCount = 81 := rfl
  have hlt := p.isLt
  by_cases h : 9 ≤ p.val
  · have hq : p.val - 9 < pointCount := by omega
    refine ⟨⟨p.val - 9, hq⟩, ?_, by show p.val - 9 < p.val; omega⟩
    rw [neighbours_eq, mem_adjacentTo]
    left
    show p.val - 9 + side = p.val
    omega
  · have hq : p.val - 1 < pointCount := by omega
    refine ⟨⟨p.val - 1, hq⟩, ?_, by show p.val - 1 < p.val; omega⟩
    rw [neighbours_eq, mem_adjacentTo]
    right; right; left
    show p.val - 1 + 1 = p.val ∧ p.val % 9 ≠ 0
    omega

theorem exists_mem_neighbours (p : Point) : ∃ q, q ∈ p.neighbours := by
  by_cases hp : p.val = 0
  · have hnext : (1 : Point) ∈ (0 : Point).neighbours := by decide
    have hzero : p = 0 := Fin.ext hp
    exact ⟨1, hzero ▸ hnext⟩
  · obtain ⟨q, hq, -⟩ := exists_smaller_neighbour hp
    exact ⟨q, hq⟩

end Point

namespace PointSet

variable {p q : Point}

/-- The board is connected: from each point one gets to the first one, left or up at each step. -/
theorem linked_zero (p : Point) : Linked (fun _ => true) p 0 := by
  induction h : p.val using Nat.strongRecOn generalizing p with
  | ind n ih =>
    by_cases hp : p = 0
    · rw [hp]
      exact .refl _ _
    · have hpos : p.val ≠ 0 := fun e => hp (Fin.ext e)
      obtain ⟨q, hq, hlt⟩ := Point.exists_smaller_neighbour hpos
      exact (Linked.step (.refl _ p) hq rfl).trans (ih q.val (h ▸ hlt) q rfl)

theorem linked_all (p q : Point) : Linked (fun _ => true) p q :=
  (linked_zero p).trans ((linked_zero q).symm rfl)

end PointSet

namespace Board

variable {b now : Board} {color : Color} {chains regions chains' regions' : List PointSet}
  {c r : PointSet} {p q x y : Point}

/-! ## No room for two eyes -/

/-- No stone of the color is beside the point. -/
def Inner (b : Board) (color : Color) (p : Point) : Prop := ∀ q ∈ p.neighbours, b[q] ≠ some color

/-- Any two inner points of the set lie side by side. -/
def Cramped (b : Board) (color : Color) (s : PointSet) : Prop :=
  ∀ p q, s.has p = true → s.has q = true → b.Inner color p → b.Inner color q →
    p = q ∨ p ∈ q.neighbours

namespace Secure

theorem eq_flood (hs : b.Secure color chains regions) (hr : r ∈ regions) (hp : r.has p = true) :
    r = .flood (fun q => b[q] != some color) p := by
  obtain ⟨start, hstart, rfl⟩ := hs.region r hr
  exact (PointSet.flood_eq (by simpa using hstart) hp).symm

theorem has_step (hs : b.Secure color chains regions) (hr : r ∈ regions) (hx : r.has x = true)
    (hy : y ∈ x.neighbours) (hne : b[y] ≠ some color) : r.has y = true := by
  obtain ⟨start, -, rfl⟩ := hs.region r hr
  exact PointSet.has_flood.mpr ((PointSet.has_flood.mp hx).step hy (by simpa using hne))

end Secure

namespace Stands

/-- The way out of a region is closed by the living chains. -/
theorem has_step (h : Stands b now color chains regions) (hs : b.Secure color chains regions)
    (hr : r ∈ regions) (hx : r.has x = true) (hy : y ∈ x.neighbours)
    (hne : now[y] ≠ some color) : r.has y = true := by
  refine (hs.has_or_of_mem_neighbours hr hx hy).resolve_right ?_
  rintro ⟨c, hc, hcy⟩
  exact hne (h.alive c hc y hcy)

/-- A chain of the opponent with a stone in a region lies in the region. -/
theorem has_chain (h : Stands b now color chains regions) (hs : b.Secure color chains regions)
    (hr : r ∈ regions) (hx : r.has x = true) (hcolor : now[x] = some color.other)
    (hy : (now.chain x).has y = true) : r.has y = true := by
  induction Board.has_chain.mp hy with
  | refl => exact hx
  | tail hway hstep ih =>
    apply h.has_step hs hr (ih (Board.has_chain.mpr hway)) hstep.1
    rw [eq_of_beq hstep.2, hcolor]
    exact fun e => Color.other_ne _ (Option.some.inj e)

/-- A living chain stays inside a region of the opponent that holds one of its stones. -/
theorem has_alive (h : Stands b now color chains regions) (hs : b.Secure color chains regions)
    (hs' : now.Secure color.other chains' regions') (hr : r ∈ regions') (hc : c ∈ chains)
    (hcx : c.has x = true) (hx : r.has x = true) (hcy : c.has y = true) : r.has y = true := by
  obtain ⟨hcolor, rfl⟩ := hs.eq_of_has_chain hc hcx
  induction Board.has_chain.mp hcy with
  | refl => exact hx
  | tail hway hstep ih =>
    have hmid := Board.has_chain.mpr hway
    apply hs'.has_step hr (ih hmid) hstep.1
    rw [h.alive _ hc _ (Board.has_chain.mpr (hway.tail hstep))]
    exact fun e => Color.ne_other _ (Option.some.inj e)

/-- A vital region of an opponent's chain inside a region has no living chain in it: the vital
regions of that chain would all have to touch the opponent's. -/
theorem inner_of_vital (h : Stands b now color chains regions)
    (hs : b.Secure color chains regions) (hs' : now.Secure color.other chains' regions')
    (hr : r ∈ regions) (hx : r.has x = true) (hcolor : now[x] = some color.other)
    {eye : PointSet} (heye : eye ∈ regions') (hvital : now.isVital eye (now.chain x) = true)
    {e : Point} (he : eye.has e = true) (hre : r.has e = true) : b.Inner color e := by
  intro q hq hqcolor
  obtain ⟨c, hc, hcq⟩ : ∃ c ∈ chains, c.has q = true := by
    refine (hs.has_or_of_mem_neighbours hr hre hq).resolve_left ?_
    intro hrq
    exact hs.ne_of_has_region hr hrq hqcolor
  have heyeq : eye.has q = true := by
    apply hs'.has_step heye he hq
    rw [h.alive c hc q hcq]
    exact fun e => Color.ne_other _ (Option.some.inj e)
  -- Another vital region of the living chain has an empty point, which is in the eye as well.
  obtain ⟨far, hfar, hfarVital, hfare⟩ := hs.exists_vital hc e
  obtain ⟨l, hl, hlnone⟩ := h.room far hfar
  obtain ⟨s, hsl, hcs⟩ := Secure.next_of_isVital hfarVital hl (h.filled far hfar l hl hlnone)
  have heyel : eye.has l = true := by
    apply hs'.has_step heye (h.has_alive hs hs' heye hc hcq heyeq hcs)
      (Point.mem_neighbours_comm.mp hsl)
    rw [hlnone]
    exact nofun
  -- So it touches the opponent's chain, and the other region would be this one.
  obtain ⟨w, hw, hxw⟩ := Secure.next_of_isVital hvital heyel hlnone
  have hrl : r.has l = true := by
    apply h.has_step hs hr (h.has_chain hs hr hx hcolor hxw) (Point.mem_neighbours_comm.mp hw)
    rw [hlnone]
    exact nofun
  rw [hs.eq_flood hfar hl, ← hs.eq_flood hr hrl, hre] at hfare
  cases hfare

/-- An opponent's chain that lives in a region has an empty inner point there, apart from and not
beside a given empty point. -/
theorem exists_inner (h : Stands b now color chains regions) (hs : b.Secure color chains regions)
    (hs' : now.Secure color.other chains' regions') (hbreathes : now.Breathes)
    (hr : r ∈ regions) (hx : r.has x = true) (hcolor : now[x] = some color.other)
    (hc : now.chain x ∈ chains') (p : Point) :
    ∃ e, r.has e = true ∧ now[e] = none ∧ b.Inner color e ∧
      (now[p] = none → p ≠ e ∧ p ∉ e.neighbours) := by
  obtain ⟨eye, heye, hvital, hp⟩ := hs'.exists_vital hc p
  obtain ⟨e, he, hempty⟩ := (Stands.start hs' hbreathes).room eye heye
  obtain ⟨w, hw, hxw⟩ := Secure.next_of_isVital hvital he hempty
  have hre : r.has e = true := by
    apply h.has_step hs hr (h.has_chain hs hr hx hcolor hxw) (Point.mem_neighbours_comm.mp hw)
    rw [hempty]
    exact nofun
  refine ⟨e, hre, hempty, h.inner_of_vital hs hs' hr hx hcolor heye hvital he hre, ?_⟩
  intro hpnone
  constructor
  · rintro rfl
    rw [hp] at he
    cases he
  · intro hpe
    rw [hs'.has_step heye he hpe (by rw [hpnone]; exact nofun)] at hp
    cases hp

/-- No chain of the opponent lives in a cramped region. -/
theorem not_alive_of_cramped (h : Stands b now color chains regions)
    (hs : b.Secure color chains regions) (hs' : now.Secure color.other chains' regions')
    (hbreathes : now.Breathes) (hr : r ∈ regions) (hcramped : b.Cramped color r)
    (hc : c ∈ chains') (hx : r.has x = true) : c.has x = false := by
  by_contra hcx
  obtain ⟨hcolor, rfl⟩ := hs'.eq_of_has_chain hc ((Bool.not_eq_false _).mp hcx)
  obtain ⟨e, hre, hempty, hinner, -⟩ := h.exists_inner hs hs' hbreathes hr hx hcolor hc x
  obtain ⟨e', hre', -, hinner', happart⟩ := h.exists_inner hs hs' hbreathes hr hx hcolor hc e
  obtain ⟨hne, hnot⟩ := happart hempty
  rcases hcramped e e' hre hre' hinner hinner' with heq | hnext
  · exact hne heq
  · exact hnot hnext

end Stands

/-! ## Eyes -/

/-- The board is connected, so a region borders on its color if there is a stone. -/
theorem borders_of_ne (hx : b[x] ≠ some color) (hy : b[y] = some color) :
    b.borders (.flood (fun q => b[q] != some color) x) color = true := by
  by_contra hno
  have hall : ∀ z, (PointSet.flood (fun q => b[q] != some color) x).has z = true := by
    intro z
    induction PointSet.linked_all x z with
    | refl => exact PointSet.has_flood_self _ _
    | @tail z w _ hstep ih =>
      refine PointSet.has_flood.mpr ((PointSet.has_flood.mp ih).step hstep.1 ?_)
      rw [bne_iff_ne]
      intro hw
      refine hno (PointSet.any_eq_true.mpr ⟨z, ih, List.any_eq_true.mpr ⟨w, hstep.1, ?_⟩⟩)
      exact beq_iff_eq.mpr hw
  have hx : (b[x] != some color) = true := bne_iff_ne.mpr hx
  have hinside : (b[y] != some color) = true := PointSet.inside_of_has_flood hx (hall y)
  exact bne_iff_ne.mp hinside hy

theorem mem_chains : c ∈ b.chains color ↔ ∃ p, b[p] = some color ∧ c = b.chain p := by
  unfold chains chain
  rw [PointSet.mem_components]
  refine exists_congr fun p => ?_
  rw [beq_iff_eq]
  refine and_congr_right fun hp => ?_
  rw [hp]

theorem mem_regions : r ∈ b.regions color ↔
    ∃ p, b[p] ≠ some color ∧ r = .flood (fun q => b[q] != some color) p := by
  unfold regions
  rw [PointSet.mem_components]
  simp only [bne_iff_ne]

theorem two_le_length {α : Type} {l : List α} {x y : α} (hx : x ∈ l) (hy : y ∈ l) (hne : x ≠ y) :
    2 ≤ l.length := by
  match l, hx, hy with
  | [z], hx, hy =>
    exact absurd ((List.mem_singleton.mp hx).trans (List.mem_singleton.mp hy).symm) hne
  | _ :: _ :: _, _, _ => simp

/-- An empty point between stones of one color. -/
structure IsEye (b : Board) (color : Color) (e : Point) : Prop where
  empty : b[e] = none
  walled : ∀ q ∈ e.neighbours, b[q] = some color

instance (b : Board) (color : Color) (e : Point) : Decidable (b.IsEye color e) :=
  decidable_of_iff (b[e] = none ∧ e.neighbours.all fun q => b[q] = some color) (by
    simp only [List.all_eq_true, decide_eq_true_eq]
    exact ⟨fun h => ⟨h.1, h.2⟩, fun h => ⟨h.empty, h.walled⟩⟩)

namespace IsEye

variable {e : Point}

theorem eq_of_has_flood (h : b.IsEye color e)
    (hq : (PointSet.flood (fun q => b[q] != some color) e).has q = true) : q = e := by
  apply PointSet.eq_of_has_flood hq
  intro r hr
  simp [h.walled r hr]

theorem cramped (h : b.IsEye color e) :
    b.Cramped color (.flood (fun q => b[q] != some color) e) := by
  intro p q hp hq _ _
  left
  rw [h.eq_of_has_flood hp, h.eq_of_has_flood hq]

theorem exists_next (h : b.IsEye color e) : ∃ q ∈ e.neighbours, b[q] = some color := by
  obtain ⟨q, hq⟩ := e.exists_mem_neighbours
  exact ⟨q, hq, h.walled q hq⟩

/-- An eye is vital to the chain around it. -/
theorem isVital {c : PointSet} (h : b.IsEye color e)
    (hc : ∀ q : Point, b[q] = some color → c.has q) :
    b.isVital (.flood (fun q => b[q] != some color) e) c = true := by
  obtain ⟨q, hq, hcolor⟩ := h.exists_next
  have hnext : e.neighbours.any c.has = true := List.any_eq_true.mpr ⟨q, hq, hc q hcolor⟩
  unfold Board.isVital
  rw [Bool.and_eq_true, PointSet.any_eq_true, PointSet.all_eq_true]
  constructor
  · exact ⟨e, PointSet.has_flood_self _ e, hnext⟩
  · intro p hp
    rw [h.eq_of_has_flood hp, hnext, Bool.or_true]

theorem borders (h : b.IsEye color e) :
    b.borders (.flood (fun q => b[q] != some color) e) color = true := by
  obtain ⟨q, hq, hcolor⟩ := h.exists_next
  unfold Board.borders
  rw [PointSet.any_eq_true]
  exact ⟨e, PointSet.has_flood_self _ e, List.any_eq_true.mpr ⟨q, hq, beq_iff_eq.mpr hcolor⟩⟩

end IsEye

/-- One chain with all stones of a color, and two eyes. -/
structure TwoEyed (b : Board) (color : Color) (p e e' : Point) : Prop where
  all : ∀ q : Point, b[q] = some color → (b.chain p).has q = true
  eye : b.IsEye color e
  eye' : b.IsEye color e'
  ne : e ≠ e'

instance (b : Board) (color : Color) (p e e' : Point) : Decidable (b.TwoEyed color p e e') :=
  decidable_of_iff ((∀ q : Point, b[q] = some color → (b.chain p).has q = true) ∧
      b.IsEye color e ∧ b.IsEye color e' ∧ e ≠ e')
    ⟨fun h => ⟨h.1, h.2.1, h.2.2.1, h.2.2.2⟩, fun h => ⟨h.all, h.eye, h.eye', h.ne⟩⟩

namespace TwoEyed

variable {e e' : Point}

theorem mem_regions (h : b.IsEye color e) : PointSet.flood (fun q => b[q] != some color) e ∈
    (b.regions color).filter (b.borders · color) := by
  refine List.mem_filter.mpr ⟨Board.mem_regions.mpr ⟨e, ?_, rfl⟩, h.borders⟩
  rw [h.empty]
  exact nofun

/-- Nothing is eliminated where one chain with two eyes has all stones. -/
theorem life_eq (h : b.TwoEyed color p e e') :
    b.life color = (b.chains color, (b.regions color).filter (b.borders · color)) := by
  have hapart : PointSet.flood (fun q => b[q] != some color) e ≠
      PointSet.flood (fun q => b[q] != some color) e' := by
    intro heq
    exact h.ne (h.eye'.eq_of_has_flood (heq ▸ PointSet.has_flood_self _ e))
  have hchains : b.keepChains (b.chains color) ((b.regions color).filter (b.borders · color)) =
      b.chains color := by
    refine List.filter_eq_self.mpr ?_
    intro c hc
    obtain ⟨s, hs, rfl⟩ := mem_chains.mp hc
    have hall : ∀ q : Point, b[q] = some color → (b.chain s).has q = true := by
      intro q hq
      rw [chain_eq (h.all s hs)]
      exact h.all q hq
    rw [decide_eq_true_eq]
    exact two_le_length (List.mem_filter.mpr ⟨mem_regions h.eye, h.eye.isVital hall⟩)
      (List.mem_filter.mpr ⟨mem_regions h.eye', h.eye'.isVital hall⟩) hapart
  have hregions : b.keepRegions color (b.chains color)
      ((b.regions color).filter (b.borders · color)) =
      (b.regions color).filter (b.borders · color) := by
    refine List.filter_eq_self.mpr ?_
    intro r _
    unfold isEnclosed
    rw [PointSet.all_eq_true]
    intro x _
    rw [List.all_eq_true]
    intro q _
    by_cases hq : b[q] = some color
    · rw [Bool.or_eq_true, List.any_eq_true]
      exact .inr ⟨b.chain q, mem_chains.mpr ⟨q, hq, rfl⟩, has_chain_self b q⟩
    · rw [Bool.or_eq_true]
      exact .inl (bne_iff_ne.mpr hq)
  unfold life
  rw [lifeFrom]
  simp only [hchains, hregions, Nat.lt_irrefl, if_false]

/-- If there are no other stones, then every point is settled, however large the regions are. -/
theorem has_settled (h : b.TwoEyed color p e e') (halone : ∀ q : Point, b[q] ≠ some color.other)
    (x : Point) : (b.settled color).has x = true := by
  rw [Board.has_settled, h.life_eq]
  by_cases hx : b[x] = some color
  · exact .inl ⟨b.chain x, mem_chains.mpr ⟨x, hx, rfl⟩, has_chain_self b x⟩
  · right
    refine ⟨.flood (fun q => b[q] != some color) x, ?_, ?_, PointSet.has_flood_self _ x⟩
    · refine List.mem_filter.mpr ⟨Board.mem_regions.mpr ⟨x, hx, rfl⟩, ?_⟩
      obtain ⟨q, -, hq⟩ := h.eye.exists_next
      exact borders_of_ne hx hq
    · rw [PointSet.all_eq_true]
      intro q hq
      have hown : b[q] ≠ some color := by
        simpa using PointSet.inside_of_has_flood (by simpa using hx) hq
      rw [Option.isNone_iff_eq_none, Option.eq_none_iff_forall_ne_some]
      intro c hc
      by_cases hcolor : color = c
      · exact hown (hcolor ▸ hc)
      · exact halone q (Color.eq_other_of_ne (Ne.symm hcolor) ▸ hc)

end TwoEyed

end Board

namespace Position

variable {pos pos' : Position} {color : Color} {p : Point}

theorem OnlyPasses.breathes (h : OnlyPasses color pos pos') (hb : pos.board.Breathes) :
    pos'.board.Breathes := by
  induction h with
  | rest => exact hb
  | step _ _ hplay ih => exact breathes_play ih hplay

/-! ## A corner -/

/-- A chain in the corner with the eyes 0 and 2. -/
def corner : List Point := [1, 3, 9, 10, 11, 12]

/-- A chain in the opposite corner with the eyes 80 and 78. -/
def farCorner : List Point := [79, 77, 71, 70, 69, 68]

theorem exists_corner : ∃ pos, (initial (.ofInt 7)).playAll (againstPasses corner) = .ok pos ∧
    pos.board = Board.blank.placeAll .black corner ∧ pos.toPlay = .white ∧ pos.passes = 0 ∧
      pos.ko = none := by
  obtain ⟨pos, hplays, -, hboard, hturn, hpasses, hko⟩ :=
    @exists_quiet_run (initial (.ofInt 7)) 1 corner.tail rfl rfl (by decide +kernel)
  exact ⟨pos, hplays, hboard, hturn, hpasses, hko⟩

theorem twoEyed_corner : (Board.blank.placeAll .black corner).TwoEyed .black 10 0 2 := by
  decide +kernel

theorem has_settled_corner (p : Point) :
    ((Board.blank.placeAll .black corner).settled .black).has p = true :=
  twoEyed_corner.has_settled (by decide +kernel) p

/-! ## What lasts, and what does not -/

/-- Whatever the opponent plays while a color only passes, it gets no living chain on a point that
was settled for the color, if that is a stone or an empty point of a cramped region. -/
theorem settled_lasts {komi : Single} {moves : List Move}
    (hreach : (initial komi).playAll moves = .ok pos) (hway : OnlyPasses color pos pos')
    (hsettled : (pos.board.settled color).has p = true)
    (hcramped : pos.board[p] = none →
      pos.board.Cramped color (.flood (fun q => pos.board[q] != some color) p)) :
    ∀ c ∈ (pos'.board.life color.other).1, c.has p = false := by
  have hb := breathes_playAll hreach
  have hs := pos.board.secure_life color
  have hs' := pos'.board.secure_life color.other
  have hstands := hway.stands hs hb
  intro c hc
  rcases Board.has_settled.mp hsettled with ⟨a, ha, hp⟩ | ⟨r, hr, hempty, hp⟩
  · by_contra hcp
    have hcolor := (hs'.eq_of_has_chain hc ((Bool.not_eq_false _).mp hcp)).1
    rw [hstands.alive a ha p hp] at hcolor
    exact Color.ne_other _ (Option.some.inj hcolor)
  · have hnone : pos.board[p] = none := by
      simpa using PointSet.all_eq_true.mp hempty p hp
    have hroom := hcramped hnone
    rw [← hs.eq_flood hr hp] at hroom
    exact hstands.not_alive_of_cramped hs hs' (hway.breathes hb) hr hroom hc hp

/-- White's stone on the point 40 does not touch black's eye on the point 0. -/
theorem settled_lasts_in_corner : ∃ pos next,
    (initial (.ofInt 7)).playAll (againstPasses corner) = .ok pos ∧
      (pos.board.settled .black).has 0 = true ∧
      pos.board.Cramped .black (.flood (fun q => pos.board[q] != some .black) 0) ∧
      pos.play (.stone 40) = .ok next ∧ OnlyPasses .black pos next ∧
      ∀ c ∈ (next.board.life .white).1, c.has 0 = false := by
  obtain ⟨pos, hplays, hboard, hturn, hpasses, hko⟩ := exists_corner
  have hover : pos.isOver = false := by
    rw [isOver, hpasses]
    rfl
  have hsettled : (pos.board.settled .black).has 0 = true := by
    rw [hboard]
    exact has_settled_corner 0
  have hcramped : pos.board.Cramped .black (.flood (fun q => pos.board[q] != some .black) 0) := by
    rw [hboard]
    exact twoEyed_corner.eye.cramped
  have hquiet : pos.board.Quiet pos.toPlay 40 := by
    rw [hboard, hturn]
    decide +kernel
  obtain ⟨next, hnext, -⟩ := play_quiet hover hko hquiet
  have hway : OnlyPasses .black pos next := by
    refine .step (.rest pos) ?_ hnext
    rw [hturn]
    intro hmine
    cases hmine
  exact ⟨pos, next, hplays, hsettled, hcramped, hnext, hway,
    settled_lasts hplays hway hsettled fun _ => hcramped⟩

theorem getElem_farCorner : ∀ p ∈ farCorner,
    ((Board.blank.placeAll .black corner).placeAll .white farCorner)[p] = some .white := by
  decide +kernel

/-- White gets a living chain on points that were settled for black, on a settled board. -/
theorem settled_overturned : ∃ pos pos',
    (initial (.ofInt 7)).playAll (againstPasses corner) = .ok pos ∧
      pos.board.isSettled = true ∧ (∀ p ∈ farCorner, (pos.board.settled .black).has p = true) ∧
      pos.playAll (againstPasses farCorner) = .ok pos' ∧ OnlyPasses .black pos pos' ∧
      ∃ c ∈ (pos'.board.life .white).1, ∀ p ∈ farCorner, c.has p = true := by
  obtain ⟨pos, hplays, hboard, hturn, hpasses, hko⟩ := exists_corner
  have hover : pos.isOver = false := by
    rw [isOver, hpasses]
    rfl
  have hquiet : pos.board.AllQuiet pos.toPlay farCorner := by
    rw [hboard, hturn]
    decide +kernel
  obtain ⟨pos', hplays', hway, hboard', -⟩ := exists_quiet_run hover hko hquiet
  rw [hturn] at hway hboard'
  have hall : ∀ p, (pos.board.settled .black).has p = true := by
    rw [hboard]
    exact has_settled_corner
  have heyes : pos'.board.TwoEyed .white 70 80 78 := by
    rw [hboard', hboard]
    decide +kernel
  have hstones : ∀ p ∈ farCorner, pos'.board[p] = some .white := by
    rw [hboard', hboard]
    exact getElem_farCorner
  have halive : pos'.board.chain 70 ∈ (pos'.board.life .white).1 := by
    rw [heyes.life_eq]
    exact Board.mem_chains.mpr ⟨70, hstones 70 (by decide), rfl⟩
  refine ⟨pos, pos', hplays, ?_, fun p _ => hall p, hplays', hway, _, halive, ?_⟩
  · unfold Board.isSettled
    rw [List.all_eq_true]
    intro p _
    rw [hall p, Bool.true_or]
  · intro p hp
    exact heyes.all p (hstones p hp)

end Position

end Goban
