import Goban.Proofs.Rules.Quiet

/-!
# Ko is repetition

A play leaves a ko exactly where the opponent could give back the board that stood before it
(`Position.ko_exact`). On the board this says when a stone *takes one*: it takes a single stone,
stands alone, and has its only liberty where the taken stone was (`Board.TakesOne`). Then the
opponent's stone there takes it back and nothing else, since every other chain around had a liberty
before (`Board.TakesOne.put_back`). Conversely, a board that comes back shows that one stone was
taken by each side (`Board.takesOne_of_put_back`).
-/

namespace Goban

namespace Board

variable {b : Board} {p k q : Point} {color : Color}

/-! ## Single captures -/

/-- A stone on `p` takes the stone on `k` and no other, stands alone, and breathes through `k`
only. -/
structure TakesOne (b : Board) (color : Color) (p k : Point) : Prop where
  caught : ∀ q, (b.caught color p).has q = true ↔ q = k
  alone : ∀ q, ((b.put color p).chain p).has q = true ↔ q = p
  breath : ∀ l s, (b.put color p).IsLiberty p l s → l = k

/-- A caught stone that is the only one lies beside the stone that caught it. -/
theorem mem_neighbours_of_caught (h : ∀ q, (b.caught color p).has q = true ↔ q = k) :
    k ∈ p.neighbours := by
  obtain ⟨n, hn, -⟩ := has_withoutLiberty.mp ((h k).mpr rfl)
  have hcaught : (b.caught color p).has n = true :=
    has_withoutLiberty.mpr ⟨n, hn, has_chain_self _ n⟩
  exact (h n).mp hcaught ▸ hn.next

/-- The usual shape of a ko: the stone on `k` is walled in but for `p`, and `p` but for `k`, by
stones that have liberties elsewhere. -/
structure KoShape (b : Board) (color : Color) (p k : Point) : Prop where
  empty : b[p] = none
  beside : k ∈ p.neighbours
  foe : b[k] = some color.other
  cage : ∀ q ∈ k.neighbours, q ≠ p → b[q] = some color
  wall : ∀ q ∈ p.neighbours, q ≠ k → b[q] = some color.other ∧
    ∃ l ∈ q.neighbours, l ≠ p ∧ b[l] = none

instance (b : Board) (color : Color) (p k : Point) : Decidable (b.KoShape color p k) :=
  decidable_of_iff (b[p] = none ∧ (p.neighbours.any fun q => q = k) ∧ b[k] = some color.other ∧
      (k.neighbours.all fun q => q ≠ p → b[q] = some color) ∧
      p.neighbours.all fun q => q ≠ k → b[q] = some color.other ∧
        q.neighbours.any fun l => l ≠ p ∧ b[l] = none) (by
    simp only [List.any_eq_true, List.all_eq_true, decide_eq_true_eq, exists_eq_right]
    exact ⟨fun h => ⟨h.1, h.2.1, h.2.2.1, h.2.2.2.1, h.2.2.2.2⟩,
      fun h => ⟨h.empty, h.beside, h.foe, h.cage, h.wall⟩⟩)

theorem eq_of_has_chain (h : ∀ r ∈ p.neighbours, b[r] ≠ b[p])
    (hq : (b.chain p).has q = true) : q = p := by
  apply PointSet.eq_of_has_flood hq
  intro r hr
  simpa using h r hr

namespace KoShape

theorem getElem_place_foe (h : b.KoShape color p k) :
    (b.place color p)[k] = some color.other := by
  rw [place_of_ne (Point.ne_of_mem_neighbours h.beside), h.foe]

theorem getElem_cage (h : b.KoShape color p k) :
    ∀ r ∈ k.neighbours, (b.place color p)[r] = some color := by
  intro r hr
  by_cases hrp : r = p
  · rw [hrp, place_self]
  · rw [place_of_ne hrp, h.cage r hr hrp]

theorem single (h : b.KoShape color p k) (hq : ((b.place color p).chain k).has q = true) :
    q = k := by
  apply eq_of_has_chain _ hq
  intro r hr
  rw [h.getElem_cage r hr, h.getElem_place_foe]
  exact fun e => Color.ne_other _ (Option.some.inj e)

theorem dies (h : b.KoShape color p k) : (b.place color p).Dies color.other p k := by
  refine ⟨h.beside, h.getElem_place_foe, ?_⟩
  by_contra hne
  obtain ⟨l, s, hls⟩ := Board.libertyCount_ne_zero.mp hne
  have hlk : l ∈ k.neighbours := h.single hls.stone ▸ Point.mem_neighbours_comm.mp hls.next
  have hempty := hls.empty
  rw [h.getElem_cage l hlk] at hempty
  cases hempty

theorem caught_iff (h : b.KoShape color p k) : (b.caught color p).has q = true ↔ q = k := by
  constructor
  · intro hq
    obtain ⟨n, hn, hnq⟩ := has_withoutLiberty.mp hq
    by_cases hnk : n = k
    · subst hnk
      exact h.single hnq
    · obtain ⟨-, l, hl, hlp, hempty⟩ := h.wall n hn.next hnk
      exact absurd ((place_of_ne hlp).trans hempty) (hn.ne_none hl)
  · rintro rfl
    exact has_withoutLiberty.mpr ⟨q, h.dies, has_chain_self _ q⟩

theorem getElem_wall (h : b.KoShape color p k) (hq : q ∈ p.neighbours) (hqk : q ≠ k) :
    (b.put color p)[q] = some color.other := by
  have hfree : (b.caught color p).has q = false := by
    by_contra hno
    exact hqk (h.caught_iff.mp ((Bool.not_eq_false _).mp hno))
  rw [put_of_not_caught (Point.ne_of_mem_neighbours hq) hfree, (h.wall q hq hqk).1]

theorem alone (h : b.KoShape color p k) (hq : ((b.put color p).chain p).has q = true) :
    q = p := by
  apply eq_of_has_chain _ hq
  intro r hr
  rw [put_self]
  by_cases hrk : r = k
  · rw [put_of_caught (h.caught_iff.mpr hrk)]
    exact nofun
  · rw [h.getElem_wall hr hrk]
    exact fun e => Color.ne_other _ (Option.some.inj e).symm

theorem takesOne (h : b.KoShape color p k) : b.TakesOne color p k := by
  refine ⟨fun q => h.caught_iff, ?_, ?_⟩
  · intro q
    constructor
    · exact h.alone
    · rintro rfl
      exact has_chain_self _ q
  · intro l s hls
    by_contra hlk
    have hlp : l ∈ p.neighbours := h.alone hls.stone ▸ Point.mem_neighbours_comm.mp hls.next
    have hempty := hls.empty
    rw [h.getElem_wall hlp hlk] at hempty
    cases hempty

end KoShape

/-- The captured stone is the only one. -/
theorem taken_eq_singleton :
    b.taken color p = [k] ↔ ∀ q, (b.caught color p).has q = true ↔ q = k := by
  simp only [← mem_taken]
  constructor
  · intro h q
    rw [h, List.mem_singleton]
  · intro h
    rw [← List.perm_singleton, List.perm_ext_iff_of_nodup (b.nodup_taken color p) (by simp)]
    intro q
    rw [h, List.mem_singleton]

theorem koAfter_eq (b : Board) (captured : List Point) (p : Point) :
    Position.koAfter b captured p =
      if captured.length = 1 ∧ (b.chain p).count = 1 ∧ (b.liberties (b.chain p)).count = 1 then
        captured.head?
      else none := by
  rw [← length_group, ← libertyCount_eq_count]
  rfl

/-- The ko of a position is where a stone takes one. -/
theorem koAfter_eq_some : Position.koAfter (b.put color p) (b.taken color p) p = some k ↔
    b.TakesOne color p k := by
  rw [koAfter_eq]
  constructor
  · intro h
    split at h
    · rename_i hone
      obtain ⟨htaken, hown, hbreath⟩ := hone
      rw [PointSet.count_eq_one] at hown hbreath
      obtain ⟨x, hx⟩ := List.length_eq_one_iff.mp htaken
      rw [hx, List.head?_cons, Option.some.injEq] at h
      subst h
      have hx := taken_eq_singleton.mp hx
      obtain ⟨y, hy⟩ := hown
      obtain ⟨l, hl⟩ := hbreath
      have hyp : p = y := (hy p).mp (has_chain_self _ p)
      subst hyp
      have hxp : p ∈ x.neighbours :=
        Point.mem_neighbours_comm.mp (mem_neighbours_of_caught hx)
      have hxl : x = l := by
        rw [← hl, has_liberties]
        exact ⟨put_of_caught ((hx x).mpr rfl), p, hxp, has_chain_self _ p⟩
      refine ⟨hx, hy, ?_⟩
      intro m s hm
      rw [hxl, ← hl, has_liberties]
      exact ⟨hm.empty, s, hm.next, hm.stone⟩
    · cases h
  · intro h
    have hkp : p ∈ k.neighbours :=
      Point.mem_neighbours_comm.mp (mem_neighbours_of_caught h.caught)
    have hbreath : ((b.put color p).liberties ((b.put color p).chain p)).count = 1 := by
      rw [PointSet.count_eq_one]
      refine ⟨k, fun l => ?_⟩
      rw [has_liberties]
      constructor
      · rintro ⟨hl, s, hs, hchain⟩
        exact h.breath l s ⟨hchain, hs, hl⟩
      · rintro rfl
        exact ⟨put_of_caught ((h.caught l).mpr rfl), p, hkp, has_chain_self _ p⟩
    have htaken := taken_eq_singleton.mpr h.caught
    rw [htaken, if_pos ⟨rfl, PointSet.count_eq_one.mpr ⟨p, h.alone⟩, hbreath⟩]
    rfl

namespace TakesOne

theorem getElem_taken (h : b.TakesOne color p k) : b[k] = some color.other :=
  getElem_of_caught ((h.caught k).mpr rfl)

theorem put_taken (h : b.TakesOne color p k) : (b.put color p)[k] = none :=
  put_of_caught ((h.caught k).mpr rfl)

/-- A neighbour of the taken stone, other than the stone that took it, has another liberty. -/
theorem libertyCount_ne_zero (h : b.TakesOne color p k) (hb : b.Breathes)
    (hq : b[q] = some color) (hqp : q ≠ p) :
    (((b.put color p).place color.other k).libertyCount q) ≠ 0 := by
  have hstays : ∀ x : Point, b[x] = some color →
      ((b.put color p).place color.other k)[x] = some color := by
    intro x hx
    have hxk : x ≠ k := by
      rintro rfl
      rw [h.getElem_taken] at hx
      exact Color.other_ne _ (Option.some.inj hx)
    rw [place_of_ne hxk, put_eq_own]
    exact .inr hx
  obtain ⟨l, s, hls⟩ := Board.libertyCount_ne_zero.mp (hb q (by simp [hq]))
  have hs : b[s] = some color := (getElem_of_has_chain hls.stone).trans hq
  have hlk : l ≠ k := by
    rintro rfl
    have hempty := hls.empty
    rw [h.getElem_taken] at hempty
    cases hempty
  have hlp : l ≠ p := by
    -- Else the stone would have joined the chain, but it stands alone.
    rintro rfl
    have hjoin : ((b.put color l).chain l).has s = true := by
      apply has_chain_of_mem_neighbours (has_chain_self _ l) hls.next
      rw [put_self, put_eq_own]
      exact .inr hs
    have hsl := (h.alone s).mp hjoin
    rw [hsl, hls.empty] at hs
    cases hs
  refine Board.libertyCount_ne_zero.mpr ⟨l, s, ?_, hls.next, ?_⟩
  · apply has_chain_mono hls.stone
    intro x hx
    rw [hstays q hq, hstays x ((getElem_of_has_chain hx).trans hq)]
  · rw [place_of_ne hlk]
    exact put_eq_none hlp hls.empty

theorem getElem_taker (h : b.TakesOne color p k) :
    ((b.put color p).place color.other k)[p] = some color := by
  have hpk : p ≠ k := by
    rintro rfl
    have htaken := h.put_taken
    rw [put_self] at htaken
    cases htaken
  rw [place_of_ne hpk, put_self]

theorem alone_back (h : b.TakesOne color p k)
    (hq : (((b.put color p).place color.other k).chain p).has q = true) : q = p := by
  apply (h.alone q).mp
  apply has_chain_mono hq
  intro y hy
  have hy := (getElem_of_has_chain hy).trans h.getElem_taker
  have hyk : y ≠ k := by
    rintro rfl
    rw [place_self] at hy
    exact Color.other_ne _ (Option.some.inj hy)
  rw [place_of_ne hyk] at hy
  rw [hy, put_self]

theorem dies_back (h : b.TakesOne color p k) :
    ((b.put color p).place color.other k).Dies color k p := by
  refine ⟨Point.mem_neighbours_comm.mp (mem_neighbours_of_caught h.caught), h.getElem_taker, ?_⟩
  by_contra hne
  obtain ⟨l, s, hls⟩ := Board.libertyCount_ne_zero.mp hne
  have hsp := h.alone_back hls.stone
  have hempty := hls.empty
  have hlk : l ≠ k := by
    rintro rfl
    rw [place_self] at hempty
    cases hempty
  rw [place_of_ne hlk] at hempty
  exact hlk (h.breath l p ⟨has_chain_self _ p, hsp ▸ hls.next, hempty⟩)

/-- The opponent's stone on the taken one takes back the stone that took it, and no other. -/
theorem caught_back (h : b.TakesOne color p k) (hb : b.Breathes) :
    ((b.put color p).caught color.other k).has q = true ↔ q = p := by
  unfold Board.caught
  rw [Color.other_other, has_withoutLiberty]
  constructor
  · rintro ⟨n, hn, hq⟩
    by_cases hnp : n = p
    · subst hnp
      exact h.alone_back hq
    · have hcolor := hn.stone
      have hnk : n ≠ k := by
        rintro rfl
        rw [place_self] at hcolor
        exact Color.other_ne _ (Option.some.inj hcolor)
      rw [place_of_ne hnk] at hcolor
      have hold : b[n] = some color := (put_eq_own.mp hcolor).resolve_left hnp
      exact absurd hn.breathless (h.libertyCount_ne_zero hb hold hnp)
  · rintro rfl
    exact ⟨q, h.dies_back, has_chain_self _ q⟩

/-- The opponent's stone on the taken one gives the board back. -/
theorem put_back (h : b.TakesOne color p k) (hb : b.Breathes) (hp : b[p] = none) :
    (b.put color p).put color.other k = b := by
  apply ext_points
  intro q
  by_cases hqp : q = p
  · rw [put_of_caught ((h.caught_back hb).mpr hqp), hqp, hp]
  · have hback : ((b.put color p).caught color.other k).has q = false := by
      by_contra hcaught
      exact hqp ((h.caught_back hb).mp ((Bool.not_eq_false _).mp hcaught))
    by_cases hqk : q = k
    · rw [hqk, put_self, h.getElem_taken]
    · have htook : (b.caught color p).has q = false := by
        by_contra hcaught
        exact hqk ((h.caught q).mp ((Bool.not_eq_false _).mp hcaught))
      rw [put_of_not_caught hqk hback, put_of_not_caught hqp htook]

/-- The stone that takes back has a liberty, where it took. -/
theorem libertyCount_back (h : b.TakesOne color p k) (hb : b.Breathes) (hp : b[p] = none) :
    ((b.put color p).put color.other k).libertyCount k ≠ 0 := by
  have hnext : p ∈ k.neighbours :=
    Point.mem_neighbours_comm.mp (mem_neighbours_of_caught h.caught)
  apply libertyCount_of_next hnext
  rw [h.put_back hb hp, hp]

end TakesOne

/-- If the opponent's next stone gives the board back, each of the two stones took one. -/
theorem takesOne_of_put_back (hp : b[p] = none) (hk : (b.put color p)[k] = none)
    (hback : (b.put color p).put color.other k = b) : b.TakesOne color p k := by
  have hkp : k ≠ p := by
    rintro rfl
    rw [put_self] at hk
    cases hk
  have hbk : b[k] = some color.other := by
    rw [← put_self (b.put color p) color.other k, hback]
  -- The stone on `p` took the stone on `k`, since nothing else would have emptied that point.
  have hcaught : ∀ q, (b.caught color p).has q = true ↔ q = k := by
    intro q
    constructor
    · intro hq
      by_contra hqk
      have hstill : ((b.put color p).put color.other k)[q] = none :=
        put_eq_none hqk (put_of_caught hq)
      rw [hback, getElem_of_caught hq] at hstill
      cases hstill
    · rintro rfl
      by_contra hno
      rw [put_of_not_caught hkp ((Bool.not_eq_true _).mp hno), hbk] at hk
      cases hk
  -- The stone on `k` takes `p` back and nothing else, since `b` has all other stones.
  have htaken : ((b.put color p).caught color.other k).has p = true := by
    by_contra hno
    have hstays := put_of_not_caught hkp.symm ((Bool.not_eq_true _).mp hno)
    rw [hback, hp, put_self] at hstays
    cases hstays
  have honly : ∀ q, ((b.put color p).caught color.other k).has q = true → q = p := by
    intro q hq
    have hcolor := getElem_of_caught hq
    rw [Color.other_other] at hcolor
    refine (put_eq_own.mp hcolor).resolve_right ?_
    intro hold
    have hgone : ((b.put color p).put color.other k)[q] = none := put_of_caught hq
    rw [hback, hold] at hgone
    cases hgone
  refine ⟨hcaught, ?_, ?_⟩
  · intro q
    constructor
    · intro hq
      apply honly
      apply doomed_whole p q htaken
      exact has_chain_place hk (put_self _ _ _) hq
    · rintro rfl
      exact has_chain_self _ q
  · intro l s hls
    by_contra hlk
    obtain ⟨n, hn, hnp⟩ := has_withoutLiberty.mp htaken
    refine hn.no_liberty l s ⟨?_, hls.next, ?_⟩
    · exact has_chain_trans hnp (has_chain_place hk (put_self _ _ _) hls.stone)
    · rw [place_of_ne hlk, hls.empty]

end Board

namespace Position

variable {pos next : Position} {p k : Point} {m : Move}

/-- The position as if no ko forbade a point. -/
def withoutKo (pos : Position) : Position := { pos with ko := none }

theorem ko_afterStone : (pos.afterStone p).ko = some k ↔ pos.board.TakesOne pos.toPlay p k :=
  Board.koAfter_eq_some

/-- A ko is where the opponent, were it not for the ko, would give the board back. -/
theorem ko_eq_some (hb : pos.board.Breathes) (hplay : pos.play (.stone p) = .ok next) :
    next.ko = some k ↔ ∃ back, next.withoutKo.play (.stone k) = .ok back ∧
      back.board = pos.board := by
  obtain ⟨hp, -, -, rfl⟩ := play_stone_eq_ok hplay
  rw [ko_afterStone]
  constructor
  · intro h
    have hover : (pos.afterStone p).withoutKo.isOver = false := rfl
    have hlib := h.libertyCount_back hb hp
    refine ⟨(pos.afterStone p).withoutKo.afterStone k, ?_, h.put_back hb hp⟩
    rw [play_stone hover h.put_taken nofun]
    exact if_neg hlib
  · rintro ⟨back, hback, hboard⟩
    obtain ⟨hk, -, -, rfl⟩ := play_stone_eq_ok hback
    exact Board.takesOne_of_put_back hp hk hboard

/-- A play that the ko does not forbid is the same without it. -/
theorem play_withoutKo {back : Position} (h : pos.play (.stone k) = .ok back) :
    pos.withoutKo.play (.stone k) = .ok back := by
  obtain ⟨hk, -, hlib, rfl⟩ := play_stone_eq_ok h
  have hover : pos.withoutKo.isOver = false := by
    by_contra hover
    have hover : pos.isOver = true := (Bool.not_eq_false _).mp hover
    rw [isOver_of_play h] at hover
    cases hover
  rw [play_stone hover hk nofun]
  exact if_neg hlib

theorem ko_of_play_eq_error {m : Move} {k : Point} (h : pos.play m = .error (.ko k)) :
    m = .stone k ∧ pos.ko = some k := by
  cases m with
  | resign => cases h
  | pass =>
    rw [play_pass] at h
    split at h <;> cases h
  | stone p =>
    rw [play_stone_eq] at h
    split at h
    · cases h
    · split at h
      · cases h
      · split at h
        · rename_i hko
          cases h
          exact ⟨rfl, hko⟩
        · split at h <;> cases h

/-- After any plays from the empty board, a stone leaves a ko exactly where the opponent would give
the board back. So no stone ever gives back the board two plies before, and every move that is
refused because of a ko would have done so. -/
theorem ko_exact {komi : Single} {moves : List Move}
    (hreach : (initial komi).playAll moves = .ok pos) (hplay : pos.play m = .ok next) :
    (∀ p, m = .stone p → ∀ k, next.ko = some k ↔
        ∃ back, next.withoutKo.play (.stone k) = .ok back ∧ back.board = pos.board) ∧
      (∀ k last, next.play (.stone k) = .ok last → last.board ≠ pos.board) ∧
      (∀ m' k, next.play m' = .error (.ko k) → m' = .stone k ∧
        ∃ back, next.withoutKo.play m' = .ok back ∧ back.board = pos.board) ∧
      ∀ m' k, (initial komi).play m' ≠ .error (.ko k) := by
  have hb := breathes_playAll hreach
  refine ⟨?_, ?_, ?_, ?_⟩
  · rintro p rfl k
    exact ko_eq_some hb hplay
  · intro k last hlast hsame
    obtain ⟨hk, hko, -, rfl⟩ := play_stone_eq_ok hlast
    rcases play_eq_ok hplay with ⟨-, rfl⟩ | ⟨p, rfl, -⟩
    · -- After a pass there is one stone more.
      have hstone : pos.board[k] = some pos.toPlay.other := by
        rw [← hsame]
        exact Board.put_self _ _ _
      rw [show pos.board[k] = none from hk] at hstone
      cases hstone
    · exact hko ((ko_eq_some hb hplay).mpr ⟨_, play_withoutKo hlast, hsame⟩)
  · intro m' k hrefused
    obtain ⟨rfl, hko⟩ := ko_of_play_eq_error hrefused
    refine ⟨rfl, ?_⟩
    rcases play_eq_ok hplay with ⟨-, rfl⟩ | ⟨p, rfl, -⟩
    · cases hko
    · exact (ko_eq_some hb hplay).mp hko
  · intro m' k hrefused
    cases (ko_of_play_eq_error hrefused).2

/-- The corner after white has surrounded the point 1, beside its own stone in the corner. -/
def cornerKo : Board := (Board.blank.place .black 9).placeAll .white [0, 2, 10]

theorem exists_cornerKo : ∃ pos,
    (initial (.ofInt 7)).playAll (.stone 9 :: againstPasses [0, 2, 10]) = .ok pos ∧
      pos.board = cornerKo ∧ pos.toPlay = .black ∧ pos.isOver = false ∧ pos.ko = none := by
  obtain ⟨first, hfirst, hboard, hturn, hpasses, hfree⟩ :=
    @play_quiet (initial (.ofInt 7)) 9 rfl rfl (by decide +kernel)
  have hquiet : first.board.AllQuiet first.toPlay [0, 2, 10] := by
    rw [hboard, hturn]
    decide +kernel
  have hover : first.isOver = false := by
    rw [isOver, hpasses]
    rfl
  obtain ⟨pos, hplays, -, hboards, hturns, hpasses', hfree'⟩ := exists_quiet_run hover hfree hquiet
  refine ⟨pos, ?_, ?_, ?_, ?_, hfree'⟩
  · rw [playAll_cons, hfirst]
    exact hplays
  · rw [hboards, hboard, hturn]
    rfl
  · rw [hturns, hturn]
    rfl
  · rw [isOver, hpasses']
    rfl

theorem ko_exact_in_corner : ∃ pos next,
    (initial (.ofInt 7)).playAll (.stone 9 :: againstPasses [0, 2, 10]) = .ok pos ∧
      pos.play (.stone 1) = .ok next ∧ next.ko = some 0 ∧
      ∃ back, next.withoutKo.play (.stone 0) = .ok back ∧ back.board = pos.board := by
  obtain ⟨pos, hplays, hboard, hturn, hover, hfree⟩ := exists_cornerKo
  have hempty : pos.board[(1 : Point)] = none := by
    rw [hboard]
    decide +kernel
  have htakes : cornerKo.TakesOne .black 1 0 := Board.KoShape.takesOne (by decide +kernel)
  have hlib : (cornerKo.put .black 1).libertyCount 1 ≠ 0 :=
    Board.libertyCount_of_next (by decide) htakes.put_taken
  have hnext : pos.play (.stone 1) = .ok (pos.afterStone 1) := by
    rw [play_stone hover hempty (by rw [hfree]; exact nofun), hboard, hturn]
    exact if_neg hlib
  have hko : (pos.afterStone 1).ko = some 0 := by
    rw [ko_afterStone, hboard, hturn]
    exact htakes
  exact ⟨pos, _, hplays, hnext, hko, ((ko_exact hplays hnext).1 1 rfl 0).mp hko⟩

end Position

end Goban
