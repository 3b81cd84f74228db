import Mathlib.Algebra.Ring.Int.Defs
import Mathlib.Data.Nat.Cast.Basic
import Goban.Proofs.Rules.Area
import Goban.Proofs.Rules.Settled

/-!
# Who owns the points of a settled board

`settled` looks at the points without a stone of one color, `areaBalance` at the empty points.
A stoneless region of living chains is nevertheless a maximal joined set of empty points
(`Board.mem_life_of_settled`): the stones around it are all of one color, and there is one. So no point
is settled for both colors, and where every point is settled the score counts the points settled for
black less those settled for white (`Position.owners_agree`).
-/

namespace Goban

namespace Board

variable {b : Board} {color color' : Color} {p q : Point} {s : Set Point}

/-- A stone of the color touches the set. -/
def Meets (b : Board) (s : Set Point) (color : Color) : Prop :=
  ∃ p ∈ s, ∃ q, p.Touches q ∧ b[q] = some color

theorem meets_points {t : PointSet} : b.Meets t.points color ↔ b.borders t color = true := by
  unfold Meets borders
  simp only [PointSet.any_eq_true, List.any_eq_true, beq_iff_eq, PointSet.mem_points,
    Point.mem_neighbours]

/-! ## Settled points -/

theorem color_eq_of_settled (hp : b[p] = some color') (h : (b.settled color).has p = true) :
    color' = color := by
  rcases has_settled.mp h with ⟨c, hc, hcp⟩ | ⟨r, -, hempty, hrp⟩
  · rw [((b.secure_life color).eq_of_has_chain hc hcp).1] at hp
    exact (Option.some.inj hp).symm
  · have hnone : b[p].isNone = true := PointSet.all_eq_true.mp hempty p hrp
    rw [hp] at hnone
    cases hnone

theorem borders_of_mem_life {r : PointSet} (h : r ∈ (b.life color).2) :
    b.borders r color = true := by
  obtain ⟨-, hregions⟩ := b.lifeFrom_sublist color (b.chains color)
    ((b.regions color).filter (b.borders · color))
  exact (List.mem_filter.mp (hregions.subset h)).2

/-- The empty points joined with a settled one are a stoneless region of living chains. -/
theorem mem_life_of_settled (hp : b[p] = none) (h : (b.settled color).has p = true) :
    .flood (fun q => b[q].isNone) p ∈ (b.life color).2 ∧
      ∀ q, (PointSet.flood (fun q => b[q].isNone) p).has q = true →
        (b.settled color).has q = true := by
  have hs := b.secure_life color
  rcases has_settled.mp h with ⟨c, hc, hcp⟩ | ⟨r, hr, hempty, hrp⟩
  · rw [(hs.eq_of_has_chain hc hcp).1] at hp
    cases hp
  · have harea : PointSet.flood (fun q => b[q].isNone) p = r := by
      rw [hs.eq_flood hr hrp] at hempty ⊢
      apply PointSet.ext
      intro q
      rw [Bool.eq_iff_iff, PointSet.has_flood, PointSet.has_flood]
      constructor
      · refine fun hway => hway.mono fun x _ hx => ?_
        rw [Option.isNone_iff_eq_none.mp hx]
        rfl
      · -- The way stays in the region, where every point is empty.
        refine fun hway => hway.mono fun x hx _ => ?_
        exact PointSet.all_eq_true.mp hempty x (PointSet.has_flood.mpr hx)
    rw [harea]
    exact ⟨hr, fun q hq => has_settled.mpr (.inr ⟨r, hr, hempty, hq⟩)⟩

/-- A set of empty points that is settled for a color touches this color only. -/
theorem borders_settled_area (hp : b[p] = none) (h : (b.settled color).has p = true) :
    b.borders (.flood (fun q => b[q].isNone) p) color' = true ↔ color' = color := by
  have hs := b.secure_life color
  obtain ⟨hr, -⟩ := mem_life_of_settled hp h
  constructor
  · intro hborders
    obtain ⟨x, hx, hany⟩ := PointSet.any_eq_true.mp hborders
    obtain ⟨q, hq, hcolor⟩ := List.any_eq_true.mp hany
    have hcolor : b[q] = some color' := eq_of_beq hcolor
    rcases hs.has_or_of_mem_neighbours hr hx hq with hin | ⟨c, hc, hcq⟩
    · have hnone := PointSet.inside_of_has_flood (by rw [hp]; rfl) hin
      rw [hcolor] at hnone
      cases hnone
    · rw [(hs.eq_of_has_chain hc hcq).1] at hcolor
      exact (Option.some.inj hcolor).symm
  · rintro rfl
    exact borders_of_mem_life hr

theorem settled_unique (h : (b.settled color).has p = true) (h' : (b.settled color').has p = true) :
    color = color' := by
  cases hp : b[p] with
  | some c => exact (color_eq_of_settled hp h).symm.trans (color_eq_of_settled hp h')
  | none => exact (borders_settled_area hp h').mp ((borders_settled_area hp h).mpr rfl)

theorem exists_settled (h : b.isSettled = true) (p : Point) :
    ∃ color, (b.settled color).has p = true := by
  have hp := List.all_eq_true.mp h p (Point.mem_all p)
  rcases Bool.or_eq_true_iff.mp hp with hblack | hwhite
  · exact ⟨.black, hblack⟩
  · exact ⟨.white, hwhite⟩

/-! ## Counting them -/

/-- What a point of a settled board adds to black's balance. -/
def share (b : Board) (p : Point) : Int := if (b.settled .black).has p = true then 1 else -1

theorem share_eq (h : (b.settled color).has p = true) : b.share p = stoneBalance (some color) := by
  unfold share
  cases color with
  | black => rw [if_pos h, stoneBalance]
  | white =>
    have hblack : ¬ (b.settled .black).has p = true := by
      intro hblack
      cases settled_unique hblack h
    rw [if_neg hblack, stoneBalance]

theorem credit_eq_share (h : b.isSettled = true) (p : Point) : b.credit p = b.share p := by
  obtain ⟨owner, howner⟩ := exists_settled h p
  rw [share_eq howner]
  cases hp : b[p] with
  | some color => rw [credit_of_stone hp, color_eq_of_settled hp howner]
  | none =>
    have hborders : ∀ color, b.borders (.flood (fun q => b[q].isNone) p) color =
        decide (color = owner) := by
      intro color
      rw [Bool.eq_iff_iff, decide_eq_true_eq]
      exact borders_settled_area hp howner
    rw [credit_of_empty hp, hborders, hborders]
    cases owner <;> rfl

/-- On a settled board every point adds its share. -/
theorem areaBalance_eq_sum (h : b.isSettled = true) :
    b.areaBalance = (Point.all.map b.share).sum := by
  rw [areaBalance_eq_sum_credit]
  exact congrArg List.sum (List.map_congr_left fun p _ => credit_eq_share h p)

theorem not_has_black_iff (h : b.isSettled = true) :
    ¬ (b.settled .black).has p = true ↔ (b.settled .white).has p = true := by
  constructor
  · intro hblack
    obtain ⟨color, hcolor⟩ := exists_settled h p
    cases color with
    | black => exact absurd hcolor hblack
    | white => exact hcolor
  · intro hwhite hblack
    cases settled_unique hblack hwhite

theorem toList_settled_white (h : b.isSettled = true) :
    (b.settled .white).toList = Point.all.filter fun p => !(b.settled .black).has p := by
  refine List.filter_congr fun p _ => ?_
  rw [Bool.eq_iff_iff, Bool.not_eq_true']
  exact (not_has_black_iff h).symm.trans (Bool.not_eq_true _).to_iff

theorem count_settled (h : b.isSettled = true) :
    (b.settled .black).count + (b.settled .white).count = pointCount := by
  rw [← PointSet.length_toList, ← PointSet.length_toList, toList_settled_white h]
  exact (List.length_eq_length_filter_add (b.settled .black).has).symm

theorem sum_share (h : b.isSettled = true) : (Point.all.map b.share).sum =
    ((b.settled .black).count : Int) - (b.settled .white).count := by
  have hblack : (Point.all.filter fun p => (b.settled .black).has p) = (b.settled .black).toList :=
    rfl
  unfold share
  rw [List.sum_map_ite, ← PointSet.length_toList, ← PointSet.length_toList, toList_settled_white h]
  simp only [List.map_const', List.sum_replicate, Bool.decide_eq_true, Bool.not_eq_true,
    Bool.decide_eq_false, nsmul_eq_mul, hblack]
  omega

end Board

namespace Position

variable {pos : Position}

/-- On a settled board every point is settled for one color, each maximal joined set of empty points
touches stones of one color, and the score counts the points settled for either side. -/
theorem owners_agree (h : pos.board.isSettled = true) :
    (∀ p, ¬((pos.board.settled .black).has p = true ∧ (pos.board.settled .white).has p = true)) ∧
      (∀ s, PointSet.IsComponent (fun p => pos.board[p] = none) s →
        ∃! color, pos.board.Meets s color) ∧
      pos.score = .ofInt ((pos.board.settled .black).count - (pos.board.settled .white).count)
        - pos.komi ∧
      (pos.board.settled .black).count + (pos.board.settled .white).count = pointCount := by
  refine ⟨fun p ⟨hblack, hwhite⟩ => ?_, fun s hs => ?_, ?_, Board.count_settled h⟩
  · cases Board.settled_unique hblack hwhite
  · obtain ⟨area, harea, rfl⟩ :=
      (PointSet.isComponent_iff fun p => Option.isNone_iff_eq_none).mp hs
    obtain ⟨p, hp, rfl⟩ := PointSet.mem_components.mp harea
    obtain ⟨color, hcolor⟩ := Board.exists_settled h p
    have hborders : ∀ color', pos.board.borders _ color' = true ↔ color' = color := fun _ =>
      Board.borders_settled_area (Option.isNone_iff_eq_none.mp hp) hcolor
    refine ⟨color, Board.meets_points.mpr ((hborders color).mpr rfl), fun color' hmeets => ?_⟩
    exact (hborders color').mp (Board.meets_points.mp hmeets)
  · unfold score
    rw [Board.areaBalance_eq_sum h, Board.sum_share h]

/-- A black chain in the corner, and nothing else on the board. -/
def cornered : Position := ofBoard (Board.blank.placeAll .black corner) .white 11 (.ofInt 7)

/-- Black owns all points there. -/
theorem owners_agree_cornered : cornered.board.isSettled = true ∧
    (cornered.board.settled .white).count = 0 ∧ cornered.score = .ofInt pointCount - .ofInt 7 := by
  have hblack : ∀ p, (cornered.board.settled .black).has p = true := has_settled_corner
  have hsettled : cornered.board.isSettled = true :=
    List.all_eq_true.mpr fun p _ => Bool.or_eq_true_iff.mpr (.inl (hblack p))
  obtain ⟨happart, -, hscore, hcount⟩ := owners_agree hsettled
  have hwhite : (cornered.board.settled .white).count = 0 := by
    by_contra hne
    obtain ⟨p, hp⟩ := PointSet.count_ne_zero.mp hne
    exact happart p ⟨hblack p, hp⟩
  rw [hwhite, Nat.add_zero] at hcount
  rw [hcount, hwhite] at hscore
  exact ⟨hsettled, hwhite, hscore⟩

end Position

end Goban
