import Mathlib.Order.Bounds.Defs
import Goban.Proofs.Rules.Owners

/-!
# The chains that live are the largest self-sustaining set

Benson's condition on a set of chains: each of them has two vital regions that only chains of the
set border (`Board.SelfSustaining`). The elimination removes no chain of such a set
(`Board.Holds.sweep`), and what it ends with satisfies the condition, so it finds the largest set
(`Board.life_greatest`).

A region without an empty point is vital to every chain unless the chain has to border it. The
elimination asks for that. Where every chain has a liberty each region has an empty point, and the
condition asks nothing more (`Board.living_greatest_of_breathes`); on a board full of stones it does
(`Board.not_greatest_striped`).
-/

namespace Goban

namespace Board

variable {b : Board} {color : Color} {chains regions : List PointSet} {r c : Set Point}
  {C : Set (Set Point)} {p q : Point} {t u : PointSet}

/-! ## The condition -/

/-- A maximal joined set of points without a stone of the color. -/
def IsRegion (b : Board) (color : Color) (r : Set Point) : Prop :=
  PointSet.IsComponent (fun p => b[p] ≠ some color) r

/-- Some point of the one set touches one of the other. -/
def Adjoins (r c : Set Point) : Prop := ∃ p ∈ r, ∃ q ∈ c, p.Touches q

/-- Every empty point of the region touches the chain. -/
def Covers (b : Board) (c r : Set Point) : Prop :=
  ∀ p ∈ r, b[p] = none → ∃ q ∈ c, p.Touches q

/-- The chain borders the region and touches its empty points. -/
def Fills (b : Board) (c r : Set Point) : Prop := Adjoins r c ∧ b.Covers c r

/-- A region that no chain borders but those of the set. -/
structure IsEnclosedBy (b : Board) (color : Color) (C : Set (Set Point)) (r : Set Point) :
    Prop where
  region : b.IsRegion color r
  closed : ∀ d, b.IsChain color d → Adjoins r d → d ∈ C

/-- Chains of which each has two vital regions that only these chains border. -/
structure SelfSustaining (b : Board) (color : Color) (vital : Set Point → Set Point → Prop)
    (C : Set (Set Point)) : Prop where
  chain : ∀ c ∈ C, b.IsChain color c
  regions : ∀ c ∈ C, ∃ r r', r ≠ r' ∧ (vital c r ∧ b.IsEnclosedBy color C r) ∧
    vital c r' ∧ b.IsEnclosedBy color C r'

/-- The chains that the elimination leaves. -/
def living (b : Board) (color : Color) : Set (Set Point) := {c | ∃ t ∈ (b.life color).1, c = t.points}

/-- One round of the elimination: first the chains, then the regions. -/
def sweep (b : Board) (color : Color) (found : List PointSet × List PointSet) :
    List PointSet × List PointSet :=
  (b.keepChains found.1 found.2, b.keepRegions color (b.keepChains found.1 found.2) found.2)

/-! ## What the search finds, as sets -/

theorem isChain_iff_mem : b.IsChain color c ↔ ∃ t ∈ b.chains color, c = t.points := by
  rw [isChain_iff]
  constructor
  · rintro ⟨p, hp, rfl⟩
    exact ⟨b.chain p, mem_chains.mpr ⟨p, hp, rfl⟩, rfl⟩
  · rintro ⟨t, ht, rfl⟩
    obtain ⟨p, hp, rfl⟩ := mem_chains.mp ht
    exact ⟨p, hp, rfl⟩

theorem isRegion_iff_mem : b.IsRegion color r ↔ ∃ t ∈ b.regions color, r = t.points :=
  PointSet.isComponent_iff fun _ => bne_iff_ne

theorem any_neighbours : (p.neighbours.any t.has) = true ↔ ∃ q ∈ t.points, p.Touches q := by
  rw [List.any_eq_true]
  refine exists_congr fun q => ?_
  rw [Point.mem_neighbours, PointSet.mem_points, and_comm]

theorem fills_points : b.Fills t.points u.points ↔ b.isVital u t = true := by
  unfold Fills Adjoins Covers isVital
  rw [Bool.and_eq_true, PointSet.any_eq_true, PointSet.all_eq_true]
  refine and_congr (exists_congr fun p => ?_) (forall_congr' fun p => ?_)
  · rw [PointSet.mem_points, any_neighbours]
  · refine imp_congr_right fun _ => ?_
    rw [Bool.or_eq_true, any_neighbours, Option.isSome_iff_ne_none]
    exact Decidable.imp_iff_not_or

theorem adjoins_chain (hp : t.has p = true) (hq : p.Touches q) :
    Adjoins t.points (b.chain q).points := ⟨p, hp, q, has_chain_self b q, hq⟩

theorem isEnclosed_iff (hsub : chains ⊆ b.chains color) : b.isEnclosed color chains t = true ↔
    ∀ u ∈ b.chains color, Adjoins t.points u.points → u ∈ chains := by
  unfold isEnclosed
  simp only [PointSet.all_eq_true, List.all_eq_true, Bool.or_eq_true, List.any_eq_true]
  constructor
  · rintro h u hu ⟨p, hp, q, hq, hpq⟩
    obtain ⟨x, hx, rfl⟩ := mem_chains.mp hu
    have hcolor : b[q] = some color := (getElem_of_has_chain hq).trans hx
    rcases h p hp q (Point.mem_neighbours.mpr hpq) with hne | ⟨c, hc, hcq⟩
    · exact absurd hcolor (bne_iff_ne.mp hne)
    · obtain ⟨y, -, rfl⟩ := mem_chains.mp (hsub hc)
      rwa [← chain_eq hq, chain_eq hcq]
  · intro h p hp q hq
    by_cases hcolor : b[q] = some color
    · have hmem := h (b.chain q) (mem_chains.mpr ⟨q, hcolor, rfl⟩)
        (adjoins_chain hp (Point.mem_neighbours.mp hq))
      exact .inr ⟨b.chain q, hmem, has_chain_self b q⟩
    · exact .inl (bne_iff_ne.mpr hcolor)

/-! ## Nothing self-sustaining is removed -/

/-- The lists still hold the chains of a set, and the regions that no others border. -/
structure Holds (b : Board) (color : Color) (C : Set (Set Point))
    (found : List PointSet × List PointSet) : Prop where
  chains : ∀ t ∈ b.chains color, t.points ∈ C → t ∈ found.1
  regions : ∀ t ∈ b.regions color, b.borders t color = true →
    (∀ u ∈ b.chains color, Adjoins t.points u.points → u.points ∈ C) → t ∈ found.2
  sub : found.1 ⊆ b.chains color

theorem borders_of_adjoins (hu : u ∈ b.chains color) (h : Adjoins t.points u.points) :
    b.borders t color = true := by
  obtain ⟨p, hp, q, hq, hpq⟩ := h
  obtain ⟨x, hx, rfl⟩ := mem_chains.mp hu
  exact meets_points.mp ⟨p, hp, q, hpq, (getElem_of_has_chain hq).trans hx⟩

namespace Holds

variable {found : List PointSet × List PointSet}

theorem start (b : Board) (color : Color) (C : Set (Set Point)) :
    b.Holds color C (b.chains color, (b.regions color).filter (b.borders · color)) where
  chains _ ht _ := ht
  regions _ ht hborders _ := List.mem_filter.mpr ⟨ht, hborders⟩
  sub := List.Subset.refl _

/-- The vital regions of a chain are still there. -/
theorem exists_vital (h : b.Holds color C found) (ht : t ∈ b.chains color)
    (hr : b.Fills t.points r ∧ b.IsEnclosedBy color C r) :
    ∃ u ∈ found.2.filter fun u => b.isVital u t, r = u.points := by
  obtain ⟨hfills, henclosed⟩ := hr
  obtain ⟨u, hu, rfl⟩ := isRegion_iff_mem.mp henclosed.region
  have hmem : u ∈ found.2 := by
    refine h.regions u hu (borders_of_adjoins ht hfills.1) ?_
    intro d hd hadjoins
    exact henclosed.closed d.points (isChain_iff_mem.mpr ⟨d, hd, rfl⟩) hadjoins
  exact ⟨u, List.mem_filter.mpr ⟨hmem, fills_points.mp hfills⟩, rfl⟩

theorem mem_keepChains (h : b.Holds color C found) (hC : b.SelfSustaining color b.Fills C)
    (ht : t ∈ b.chains color) (htC : t.points ∈ C) : t ∈ b.keepChains found.1 found.2 := by
  obtain ⟨r, r', hne, hr, hr'⟩ := hC.regions t.points htC
  obtain ⟨u, hu, rfl⟩ := h.exists_vital ht hr
  obtain ⟨u', hu', rfl⟩ := h.exists_vital ht hr'
  have hne : u ≠ u' := fun heq => hne (congrArg PointSet.points heq)
  exact List.mem_filter.mpr ⟨h.chains t ht htC, decide_eq_true (two_le_length hu hu' hne)⟩

/-- A round of the elimination removes no chain of a self-sustaining set. -/
theorem sweep (h : b.Holds color C found) (hC : b.SelfSustaining color b.Fills C) :
    b.Holds color C (b.sweep color found) := by
  have hsub : b.keepChains found.1 found.2 ⊆ b.chains color :=
    fun t ht => h.sub (List.mem_of_mem_filter ht)
  refine ⟨fun t ht htC => h.mem_keepChains hC ht htC, fun t ht hborders hclosed => ?_, hsub⟩
  refine List.mem_filter.mpr ⟨h.regions t ht hborders hclosed, (isEnclosed_iff hsub).mpr ?_⟩
  intro d hd hadjoins
  exact h.mem_keepChains hC hd (hclosed d hd hadjoins)

theorem lifeFrom (h : b.Holds color C (chains, regions)) (hC : b.SelfSustaining color b.Fills C) :
    b.Holds color C (b.lifeFrom color chains regions) := by
  induction chains, regions using lifeFrom.induct b color with
  | case1 chains regions fewer kept hlt ih =>
    rw [Board.lifeFrom, if_pos hlt]
    exact ih (h.sweep hC)
  | case2 chains regions fewer kept hlt =>
    rw [Board.lifeFrom, if_neg hlt]
    exact h.sweep hC

end Holds

/-! ## The loop -/

/-- The loop makes finitely many rounds, each but the last of which removes something. -/
theorem exists_lifeFrom_eq (b : Board) (color : Color) (chains regions : List PointSet) :
    ∃ n ≤ chains.length + regions.length + 1,
      (b.sweep color)^[n] (chains, regions) = b.lifeFrom color chains regions := by
  induction chains, regions using lifeFrom.induct b color with
  | case1 chains regions fewer kept hlt ih =>
    obtain ⟨n, hn, heq⟩ := ih
    rw [lifeFrom, if_pos hlt]
    refine ⟨n + 1, ?_, ?_⟩
    · omega
    · rw [Function.iterate_succ_apply]
      exact heq
  | case2 chains regions fewer kept hlt =>
    rw [lifeFrom, if_neg hlt]
    exact ⟨1, Nat.le_add_left 1 _, rfl⟩

theorem sweep_life (b : Board) (color : Color) : b.sweep color (b.life color) = b.life color := by
  obtain ⟨hchains, hregions⟩ := b.lifeFrom_stable color (b.chains color)
    ((b.regions color).filter (b.borders · color))
  refine Prod.ext hchains ?_
  show b.keepRegions color (b.keepChains (b.life color).1 (b.life color).2) (b.life color).2 = _
  unfold life
  rw [hchains, hregions]

/-! ## The largest set -/

theorem life_chains_subset (b : Board) (color : Color) : (b.life color).1 ⊆ b.chains color :=
  (b.lifeFrom_sublist color (b.chains color) _).1.subset

theorem life_regions_subset (b : Board) (color : Color) : (b.life color).2 ⊆ b.regions color :=
  fun _ ht => List.mem_of_mem_filter ((b.lifeFrom_sublist color (b.chains color) _).2.subset ht)

theorem points_mem_living : t.points ∈ b.living color ↔ t ∈ (b.life color).1 := by
  constructor
  · rintro ⟨u, hu, heq⟩
    rwa [PointSet.points_injective heq]
  · intro ht
    exact ⟨t, ht, rfl⟩

theorem isEnclosedBy_living (ht : t ∈ (b.life color).2) :
    b.IsEnclosedBy color (b.living color) t.points := by
  refine ⟨isRegion_iff_mem.mpr ⟨t, b.life_regions_subset color ht, rfl⟩, fun d hd hadjoins => ?_⟩
  obtain ⟨u, hu, rfl⟩ := isChain_iff_mem.mp hd
  have henclosed := (b.secure_life color).enclosed t ht
  exact points_mem_living.mpr ((isEnclosed_iff (b.life_chains_subset color)).mp henclosed u hu hadjoins)

theorem living_selfSustaining (b : Board) (color : Color) :
    b.SelfSustaining color b.Fills (b.living color) := by
  have hs := b.secure_life color
  refine ⟨?_, ?_⟩
  · rintro c ⟨t, ht, rfl⟩
    exact isChain_iff_mem.mpr ⟨t, b.life_chains_subset color ht, rfl⟩
  · rintro c ⟨t, ht, rfl⟩
    -- The second region is one without a point of the first.
    obtain ⟨u, hu, hvital, -⟩ := hs.exists_vital ht 0
    obtain ⟨x, -, hux⟩ := hs.region u hu
    obtain ⟨u', hu', hvital', hx⟩ := hs.exists_vital ht x
    refine ⟨u.points, u'.points, ?_, ⟨fills_points.mpr hvital, isEnclosedBy_living hu⟩,
      fills_points.mpr hvital', isEnclosedBy_living hu'⟩
    intro heq
    rw [← PointSet.points_injective heq, hux, PointSet.has_flood_self] at hx
    cases hx

theorem living_greatest (b : Board) (color : Color) :
    IsGreatest {C | b.SelfSustaining color b.Fills C} (b.living color) := by
  refine ⟨b.living_selfSustaining color, ?_⟩
  intro C hC c hc
  obtain ⟨t, ht, rfl⟩ := isChain_iff_mem.mp (hC.chain c hc)
  exact points_mem_living.mpr (((Holds.start b color C).lifeFrom hC).chains t ht hc)

/-- The regions left are those that a chain borders, and none but living ones. -/
theorem mem_life_regions : t ∈ (b.life color).2 ↔
    (∃ d, b.IsChain color d ∧ Adjoins t.points d) ∧
      b.IsEnclosedBy color (b.living color) t.points := by
  constructor
  · intro ht
    obtain ⟨p, hp, q, hpq, hcolor⟩ := meets_points.mpr (borders_of_mem_life ht)
    exact ⟨⟨_, isChain_iff.mpr ⟨q, hcolor, rfl⟩, adjoins_chain hp hpq⟩, isEnclosedBy_living ht⟩
  · rintro ⟨⟨d, hd, hadjoins⟩, hregion, hclosed⟩
    obtain ⟨u, hu, rfl⟩ := isChain_iff_mem.mp hd
    obtain ⟨t', ht', heq⟩ := isRegion_iff_mem.mp hregion
    rw [PointSet.points_injective heq] at hadjoins hclosed ⊢
    refine ((Holds.start b color _).lifeFrom (b.living_selfSustaining color)).regions t' ht'
      (borders_of_adjoins hu hadjoins) fun d hd hadjoins => ?_
    exact hclosed d.points (isChain_iff_mem.mpr ⟨d, hd, rfl⟩) hadjoins

theorem settled_iff : (b.settled color).has p = true ↔
    (∃ c ∈ b.living color, p ∈ c) ∨
      ∃ r, p ∈ r ∧ (∀ q ∈ r, b[q] = none) ∧ (∃ d, b.IsChain color d ∧ Adjoins r d) ∧
        b.IsEnclosedBy color (b.living color) r := by
  rw [has_settled]
  refine or_congr ⟨?_, ?_⟩ ⟨?_, ?_⟩
  · rintro ⟨t, ht, hp⟩
    exact ⟨t.points, ⟨t, ht, rfl⟩, hp⟩
  · rintro ⟨_, ⟨t, ht, rfl⟩, hp⟩
    exact ⟨t, ht, hp⟩
  · rintro ⟨t, ht, hempty, hp⟩
    refine ⟨t.points, hp, fun q hq => ?_, mem_life_regions.mp ht⟩
    exact Option.isNone_iff_eq_none.mp (PointSet.all_eq_true.mp hempty q hq)
  · rintro ⟨r, hp, hempty, hr⟩
    obtain ⟨t, -, rfl⟩ := isRegion_iff_mem.mp hr.2.region
    refine ⟨t, mem_life_regions.mpr hr, PointSet.all_eq_true.mpr fun q hq => ?_, hp⟩
    exact Option.isNone_iff_eq_none.mpr (hempty q hq)

/-- The elimination ends; the chains it leaves are the largest set of which each chain has two
regions that it borders, whose empty points it touches, and that only chains of the set border; and
settled are the stones of these chains and the empty regions that only they border. -/
theorem life_greatest (b : Board) (color : Color) :
    (∃ n ≤ (b.chains color).length + ((b.regions color).filter (b.borders · color)).length + 1,
      (b.sweep color)^[n] (b.chains color, (b.regions color).filter (b.borders · color)) =
        b.life color ∧ b.sweep color (b.life color) = b.life color) ∧
    IsGreatest {C | b.SelfSustaining color b.Fills C} (b.living color) ∧
    ∀ p, (b.settled color).has p = true ↔ (∃ c ∈ b.living color, p ∈ c) ∨
      ∃ r, p ∈ r ∧ (∀ q ∈ r, b[q] = none) ∧ (∃ d, b.IsChain color d ∧ Adjoins r d) ∧
        b.IsEnclosedBy color (b.living color) r := by
  refine ⟨?_, b.living_greatest color, fun p => settled_iff⟩
  obtain ⟨n, hn, heq⟩ := b.exists_lifeFrom_eq color (b.chains color)
    ((b.regions color).filter (b.borders · color))
  exact ⟨n, hn, heq, b.sweep_life color⟩

/-! ## Regions without an empty point -/

theorem fills_iff_of_empty (hp : p ∈ r) (hempty : b[p] = none) : b.Fills c r ↔ b.Covers c r := by
  refine ⟨And.right, fun h => ⟨?_, h⟩⟩
  obtain ⟨q, hq, hpq⟩ := h p hp hempty
  exact ⟨p, hp, q, hq, hpq⟩

theorem SelfSustaining.imp {vital vital' : Set Point → Set Point → Prop}
    (h : b.SelfSustaining color vital C)
    (himp : ∀ c r, b.IsRegion color r → vital c r → vital' c r) :
    b.SelfSustaining color vital' C where
  chain := h.chain
  regions c hc := by
    obtain ⟨r, r', hne, ⟨hr, hin⟩, hr', hin'⟩ := h.regions c hc
    exact ⟨r, r', hne, ⟨himp c r hin.region hr, hin⟩, himp c r' hin'.region hr', hin'⟩

/-- With a liberty for every chain a vital region need not be said to border its chain. -/
theorem living_greatest_of_breathes (h : b.Breathes) (color : Color) :
    IsGreatest {C | b.SelfSustaining color b.Covers C} (b.living color) := by
  have hfills : ∀ c r, b.IsRegion color r → (b.Fills c r ↔ b.Covers c r) := by
    intro c r hr
    obtain ⟨t, ht, rfl⟩ := isRegion_iff_mem.mp hr
    obtain ⟨p, hp, rfl⟩ := mem_regions.mp ht
    obtain ⟨l, hl, hempty⟩ := h.exists_empty hp
    exact fills_iff_of_empty hl hempty
  have hsame : {C | b.SelfSustaining color b.Covers C} = {C | b.SelfSustaining color b.Fills C} := by
    ext C
    exact ⟨fun hC => hC.imp fun c r hr => (hfills c r hr).mpr,
      fun hC => hC.imp fun c r hr => (hfills c r hr).mp⟩
  rw [hsame]
  exact b.living_greatest color

/-- Where all that a chain touches is in one region, no other is vital to it. -/
theorem has_of_isVital (hp : b[p] ≠ some color)
    (hnext : ∀ q, u.has q = true → ∀ x ∈ q.neighbours, b[x] ≠ some color →
      (PointSet.flood (fun y => b[y] != some color) p).has x = true)
    (ht : t ∈ b.regions color) (hvital : b.isVital t u = true) : t.has p = true := by
  obtain ⟨start, hstart, rfl⟩ := mem_regions.mp ht
  have hp : (b[p] != some color) = true := bne_iff_ne.mpr hp
  have hstart : (b[start] != some color) = true := bne_iff_ne.mpr hstart
  obtain ⟨⟨x, hx, q, hq, hxq⟩, -⟩ := fills_points.mpr hvital
  have hxcolor := bne_iff_ne.mp ((PointSet.has_flood.mp hx).holds hstart)
  have hxp := hnext q hq x (Point.mem_neighbours_comm.mp (Point.mem_neighbours.mpr hxq)) hxcolor
  rw [← PointSet.flood_eq hstart hx, PointSet.flood_eq hp hxp]
  exact PointSet.has_flood_self _ p

/-- No point is empty; the second and the fourth row are white. -/
def striped : Board :=
  Vector.ofFn fun p : Point => if p.row = 1 ∨ p.row = 3 then some .white else some .black

theorem striped_ne_none (p : Point) : striped[p] ≠ none := by
  have hp : striped[p] = if p.row = 1 ∨ p.row = 3 then some .white else some .black := by
    simp [striped, Point.getElem_eq]
  rw [hp]
  split <;> exact nofun

/-- The white row under it is all that black's upper chain borders. -/
theorem striped_beside_chain : striped[(9 : Point)] ≠ some .black ∧
    ∀ q, (striped.chain 0).has q = true → ∀ p ∈ q.neighbours, striped[p] ≠ some .black →
      (PointSet.flood (fun x => striped[x] != some .black) 9).has p = true := by
  decide +kernel

/-- All black chains of the striped board have two regions that nothing else borders and that have
no empty point, and they are not found alive. -/
theorem not_greatest_striped :
    ¬ IsGreatest {C | striped.SelfSustaining .black striped.Covers C} (striped.living .black) := by
  obtain ⟨hnine, hnext⟩ := striped_beside_chain
  have hother : striped[(27 : Point)] ≠ some .black := by decide +kernel
  have hapart : (PointSet.flood (fun q => striped[q] != some .black) 9).has 27 = false := by
    decide +kernel
  have hregion : ∀ p : Point, striped[p] ≠ some .black →
      striped.IsEnclosedBy .black {c | striped.IsChain .black c}
        (PointSet.flood (fun q => striped[q] != some .black) p).points := fun p hp =>
    ⟨isRegion_iff_mem.mpr ⟨_, mem_regions.mpr ⟨p, hp, rfl⟩, rfl⟩, fun d hd _ => hd⟩
  have hcovers : ∀ c r, striped.Covers c r := fun c r p _ hp => absurd hp (striped_ne_none p)
  have hall : striped.SelfSustaining .black striped.Covers {c | striped.IsChain .black c} := by
    refine ⟨fun c hc => hc, fun c _ => ⟨_, _, ?_, ⟨hcovers _ _, hregion 9 hnine⟩,
      hcovers _ _, hregion 27 hother⟩⟩
    intro heq
    rw [PointSet.points_injective heq, PointSet.has_flood_self] at hapart
    cases hapart
  intro h
  obtain ⟨t, ht, heq⟩ := h.2 hall (isChain_iff.mpr ⟨0, by decide +kernel, rfl⟩)
  have heq : striped.chain 0 = t := PointSet.points_injective heq
  subst heq
  obtain ⟨r, hr, hvital, hno⟩ := (striped.secure_life .black).exists_vital ht 9
  rw [has_of_isVital hnine hnext (striped.life_regions_subset .black hr) hvital] at hno
  cases hno

end Board

end Goban
