import Mathlib.Algebra.Order.BigOperators.Group.List
import Mathlib.Algebra.Order.Group.Nat
import Mathlib.Data.List.Flatten
import Mathlib.Data.List.Nodup
import Goban.Proofs.Batch.Course

/-!
# The two clients of a game

Two clients of a live game stand to each other in one of few ways (`Bond`): their game is being
opened or closed, or one of them has nothing under way. What the pair adds to the counts of a
device follows from the phases of the two, so a game asks or is away on a device only while it is
enrolled there (`Bond.asks_add_awayFrom_le`). `Hub.pairSum` adds up such a quantity over games, and
what happens in one game changes the sum by what it changes there (`Hub.pairSum_update`).
-/

namespace Goban

namespace Phase

def isOpening : Phase → Bool
  | opening _ => true
  | _ => false

def isClosing : Phase → Bool
  | closing _ => true
  | _ => false

@[simp] theorem isOpening_stirred (p : Phase) : p.stirred.isOpening = p.isOpening := by
  cases p <;> rfl

@[simp] theorem isClosing_stirred (p : Phase) : p.stirred.isClosing = p.isClosing := by
  cases p <;> rfl

end Phase

namespace Client

/-- How many requests of the client are under way on a device. -/
def asks (i : Nat) (c : Client) : Nat := if c.device = i ∧ c.phase.ticket?.isSome then 1 else 0

/-- How many games the client makes wait elsewhere than on a device. -/
def awayFrom (i : Nat) (c : Client) : Nat :=
  if c.opponentDevice = some i ∧ c.phase.isAway then 1 else 0

/-- Whether a phase suits a client in a game that is neither opened nor closed. -/
def fits (c : Client) : Bool :=
  match c.phase with
  | .leaving _ | .rejoining _ => c.opponentDevice.isSome
  | .opening _ | .closing _ | .held => false
  | _ => true

/-- Whether a client is in no game. -/
def AtRest (c : Client) : Prop := c.phase = .idle ∧ c.inGame = false ∧ c.opponentDevice = none

theorem asks_stirred (i : Nat) (c : Client) : c.stirred.asks i = c.asks i := by simp [asks]

theorem awayFrom_stirred (i : Nat) (c : Client) : c.stirred.awayFrom i = c.awayFrom i := by
  simp [awayFrom, stirred]

theorem fits_stirred (c : Client) : c.stirred.fits = c.fits := by
  obtain ⟨_, _, _, _, _, phase⟩ := c
  cases phase <;> rfl

end Client

open Client

/-- Whether the game of two clients is registered on a device: it is registered on the first one's
device first, and ended there first. -/
def enrolls (i : Nat) (x y : Client) : Nat :=
  if x.device = i ∧ !x.phase.isClosing ∧ !y.phase.isOpening ∨
    y.device = i ∧ !y.phase.isClosing ∧ !x.phase.isOpening then 1 else 0

/-! ## The two clients of a game -/

/-- A client knows the other device of its game if there is one. -/
def Apart (x y : Client) : Prop :=
  x.opponentDevice = if x.device = y.device then none else some y.device

/-- Both clients are in the game, and only the first one may have something under way. -/
structure Leads (x y : Client) : Prop where
  inGame : x.inGame = true
  inGame' : y.inGame = true
  apart : Apart x y
  apart' : Apart y x
  fits : x.fits = true
  idle : y.phase = .idle

/-- The first client opens the game with the second one. -/
structure Opens (x y : Client) (b : Nat) : Prop where
  opening : x.phase = .opening b
  held : y.phase = .held
  outside : x.inGame = false ∧ y.inGame = false
  opponent : x.opponentDevice = none ∧ y.opponentDevice = none
  differ : x.device ≠ y.device

/-- The first client closes the game with the second one. -/
structure Closes (x y : Client) (b : Nat) : Prop where
  closing : x.phase = .closing b
  held : y.phase = .held
  differ : x.device ≠ y.device

/-- How the clients of a live game may stand to each other. -/
inductive Bond (x y : Client) (a b : Nat) : Prop
  | leads (h : Leads x y)
  | leads' (h : Leads y x)
  | opens (h : Opens x y b)
  | closes (h : Closes x y b)
  | closes' (h : Closes y x a)

section Stirred

variable {x y x' y' : Client} {a b i : Nat}

theorem enrolls_comm (i : Nat) (x y : Client) : enrolls i x y = enrolls i y x := by
  unfold enrolls
  exact if_congr Or.comm rfl rfl

theorem enrolls_stirred (i : Nat) (x y : Client) :
    enrolls i x.stirred y.stirred = enrolls i x y := by
  simp [enrolls]

theorem leads_stirred_iff : Leads x.stirred y.stirred ↔ Leads x y := by
  constructor
  · rintro ⟨h₁, h₂, h₃, h₄, h₅, h₆⟩
    exact ⟨h₁, h₂, h₃, h₄, fits_stirred x ▸ h₅, (stirred_phase_eq_iff rfl).mp h₆⟩
  · rintro ⟨h₁, h₂, h₃, h₄, h₅, h₆⟩
    exact ⟨h₁, h₂, h₃, h₄, (fits_stirred x).symm ▸ h₅, (stirred_phase_eq_iff rfl).mpr h₆⟩

theorem opens_stirred_iff : Opens x.stirred y.stirred b ↔ Opens x y b := by
  constructor
  · rintro ⟨h₁, h₂, h₃, h₄, h₅⟩
    exact ⟨(stirred_phase_eq_iff rfl).mp h₁, (stirred_phase_eq_iff rfl).mp h₂, h₃, h₄, h₅⟩
  · rintro ⟨h₁, h₂, h₃, h₄, h₅⟩
    exact ⟨(stirred_phase_eq_iff rfl).mpr h₁, (stirred_phase_eq_iff rfl).mpr h₂, h₃, h₄, h₅⟩

theorem closes_stirred_iff : Closes x.stirred y.stirred b ↔ Closes x y b := by
  constructor
  · rintro ⟨h₁, h₂, h₃⟩
    exact ⟨(stirred_phase_eq_iff rfl).mp h₁, (stirred_phase_eq_iff rfl).mp h₂, h₃⟩
  · rintro ⟨h₁, h₂, h₃⟩
    exact ⟨(stirred_phase_eq_iff rfl).mpr h₁, (stirred_phase_eq_iff rfl).mpr h₂, h₃⟩

theorem bond_stirred_iff : Bond x.stirred y.stirred a b ↔ Bond x y a b := by
  constructor
  · rintro (h | h | h | h | h)
    · exact .leads (leads_stirred_iff.mp h)
    · exact .leads' (leads_stirred_iff.mp h)
    · exact .opens (opens_stirred_iff.mp h)
    · exact .closes (closes_stirred_iff.mp h)
    · exact .closes' (closes_stirred_iff.mp h)
  · rintro (h | h | h | h | h)
    · exact .leads (leads_stirred_iff.mpr h)
    · exact .leads' (leads_stirred_iff.mpr h)
    · exact .opens (opens_stirred_iff.mpr h)
    · exact .closes (closes_stirred_iff.mpr h)
    · exact .closes' (closes_stirred_iff.mpr h)

theorem Bond.congr (hx : x'.stirred = x.stirred) (hy : y'.stirred = y.stirred) (h : Bond x y a b) :
    Bond x' y' a b := by
  rw [← bond_stirred_iff, hx, hy, bond_stirred_iff]
  exact h

theorem AtRest_congr (hx : x'.stirred = x.stirred) (h : x.AtRest) : x'.AtRest := by
  obtain ⟨hp, hg, ho⟩ := h
  have hp' : x'.stirred.phase = .idle := by rw [hx]; simp [hp, Phase.stirred]
  exact ⟨(stirred_phase_eq_iff rfl).mp hp', (congrArg Client.inGame hx).trans hg,
    (congrArg Client.opponentDevice hx).trans ho⟩

end Stirred

section Counts

variable {x y : Client} {a b : Nat}

theorem asks_of_ticket?_eq_none (h : x.phase.ticket? = none) (i : Nat) : x.asks i = 0 := by
  simp [asks, h]

theorem awayFrom_of_isAway_eq_false (h : x.phase.isAway = false) (i : Nat) : x.awayFrom i = 0 := by
  simp [awayFrom, h]

theorem not_opening_of_fits (h : x.fits = true) :
    x.phase.isOpening = false ∧ x.phase.isClosing = false := by
  obtain ⟨_, _, _, _, _, phase⟩ := x
  cases phase <;> first | exact ⟨rfl, rfl⟩ | cases h

/-- A game that is neither opened nor closed is registered on the devices of both clients. -/
theorem Leads.enrolls_eq (h : Leads x y) (i : Nat) :
    enrolls i x y = if x.device = i ∨ y.device = i then 1 else 0 := by
  obtain ⟨hopen, hclose⟩ := not_opening_of_fits h.fits
  have hy : y.phase.isOpening = false ∧ y.phase.isClosing = false := by
    rw [h.idle]
    exact ⟨rfl, rfl⟩
  simp [enrolls, hopen, hclose, hy]

theorem Leads.opponentDevice_eq_iff (h : Leads x y) (i : Nat) :
    x.opponentDevice = some i ↔ y.device = i ∧ x.device ≠ i := by
  rw [h.apart]
  split
  · rename_i he
    simp [he]
  · rename_i hne
    constructor
    · intro hi
      cases hi
      exact ⟨rfl, hne⟩
    · rintro ⟨rfl, -⟩
      rfl

theorem Leads.counts_le (h : Leads x y) (i : Nat) :
    x.asks i + x.awayFrom i ≤ enrolls i x y ∧ y.asks i = 0 ∧ y.awayFrom i = 0 := by
  have hticket : y.phase.ticket? = none := by rw [h.idle]; rfl
  have haway : y.phase.isAway = false := by rw [h.idle]; rfl
  refine ⟨?_, asks_of_ticket?_eq_none hticket i, awayFrom_of_isAway_eq_false haway i⟩
  rw [h.enrolls_eq, asks, awayFrom]
  simp only [h.opponentDevice_eq_iff]
  by_cases hx : x.device = i
  · simp only [hx, true_and, ne_eq, not_true_eq_false, and_false, false_and, if_false, true_or,
      if_true]
    split <;> omega
  · by_cases hy : y.device = i
    · simp only [hx, hy, false_and, if_false, true_and, ne_eq, not_false_eq_true, or_true, if_true]
      split <;> omega
    · simp [hx, hy]

/-- A game asks a device, or is away from it, at most once, and only while it is enrolled there. -/
theorem Bond.asks_add_awayFrom_le (h : Bond x y a b) (i : Nat) :
    (x.asks i + y.asks i) + (x.awayFrom i + y.awayFrom i) ≤ enrolls i x y := by
  cases h with
  | leads h =>
    obtain ⟨hle, h₁, h₂⟩ := h.counts_le i
    omega
  | leads' h =>
    obtain ⟨hle, h₁, h₂⟩ := h.counts_le i
    rw [enrolls_comm]
    omega
  | opens h =>
    simp [asks, awayFrom, h.opening, h.held, Phase.ticket?, Phase.isAway]
  | closes h =>
    simp [asks, awayFrom, h.closing, h.held, Phase.ticket?, Phase.isAway]
  | closes' h =>
    simp [asks, awayFrom, h.closing, h.held, Phase.ticket?, Phase.isAway]

end Counts

/-! ## Sums over all games -/

/-- The clients of some games. -/
def members (games : List (Nat × Nat)) : List Nat := games.flatMap fun g => [g.1, g.2]

/-- A quantity does not tell sleeping from waiting. -/
def Calm (q : Client → Client → Nat) : Prop := ∀ x y, q x.stirred y.stirred = q x y

theorem calm_enrolls (i : Nat) : Calm (enrolls i) := enrolls_stirred i

theorem calm_away (i : Nat) : Calm fun x y => x.awayFrom i + y.awayFrom i := fun x y => by
  simp only [awayFrom_stirred]

theorem calm_asks (i : Nat) : Calm fun x y => x.asks i + y.asks i := fun x y => by
  simp only [asks_stirred]

theorem Calm.congr {q : Client → Client → Nat} (hq : Calm q) {x y x' y' : Client}
    (hx : x'.stirred = x.stirred) (hy : y'.stirred = y.stirred) : q x' y' = q x y := by
  rw [← hq, hx, hy, hq]

section Games

variable {games : List (Nat × Nat)} {g : Nat × Nat} {x y : Nat}

theorem mem_members : x ∈ members games ↔ ∃ g ∈ games, g.1 = x ∨ g.2 = x := by
  simp [members, eq_comm]

theorem members_cons (g : Nat × Nat) (games : List (Nat × Nat)) :
    members (g :: games) = g.1 :: g.2 :: members games := rfl

/-- A client is in one game only. -/
theorem eq_of_mem_game (once : (members games).Nodup) {g' : Nat × Nat} (hg : g ∈ games)
    (hg' : g' ∈ games) (hx : g.1 = x ∨ g.2 = x) (hx' : g'.1 = x ∨ g'.2 = x) : g = g' := by
  induction games with
  | nil => cases hg
  | cons k rest ih =>
    simp only [members_cons, List.nodup_cons, List.mem_cons, not_or] at once
    obtain ⟨⟨-, h₁⟩, h₂, hrest⟩ := once
    have absent : ∀ {k'}, k' ∈ rest → (k.1 = x ∨ k.2 = x) → ¬(k'.1 = x ∨ k'.2 = x) := by
      rintro k' hk' (rfl | rfl) hx
      · exact h₁ (mem_members.mpr ⟨k', hk', hx⟩)
      · exact h₂ (mem_members.mpr ⟨k', hk', hx⟩)
    rcases List.mem_cons.mp hg with rfl | hmem <;> rcases List.mem_cons.mp hg' with rfl | hmem'
    · rfl
    · exact absurd hx' (absent hmem' hx)
    · exact absurd hx (absent hmem hx')
    · exact ih hrest hmem hmem'

theorem fst_ne_snd (once : (members games).Nodup) (hg : g ∈ games) : g.1 ≠ g.2 := by
  induction games with
  | nil => cases hg
  | cons k rest ih =>
    simp only [members_cons, List.nodup_cons, List.mem_cons, not_or] at once
    rcases List.mem_cons.mp hg with rfl | hmem
    · exact once.1.1
    · exact ih once.2.2 hmem

theorem not_mem_of_once {k : Nat × Nat} {rest : List (Nat × Nat)}
    (once : (members (k :: rest)).Nodup) : k ∉ rest := by
  intro hk
  simp only [members_cons, List.nodup_cons, List.mem_cons, not_or] at once
  exact once.1.2 (mem_members.mpr ⟨k, hk, .inl rfl⟩)

theorem isOther_eq_false_iff (g : Nat × Nat) (x : Nat) :
    (g.1 != x && g.2 != x) = false ↔ g.1 = x ∨ g.2 = x := by
  rw [Bool.and_eq_false_iff]
  simp

/-- Of the games only that of the client is left out. -/
theorem filter_cons_of_mem {k : Nat × Nat} {rest : List (Nat × Nat)}
    (once : (members (k :: rest)).Nodup) (hx : k.1 = x ∨ k.2 = x) :
    (k :: rest).filter (fun g => g.1 != x && g.2 != x) = rest := by
  rw [List.filter_cons, (isOther_eq_false_iff k x).mpr hx]
  refine List.filter_eq_self.mpr fun g hg => ?_
  by_contra hno
  have hgx : g.1 = x ∨ g.2 = x := (isOther_eq_false_iff g x).mp (Bool.not_eq_true _ ▸ hno)
  obtain rfl := eq_of_mem_game once List.mem_cons_self (List.mem_cons_of_mem _ hg) hx hgx
  exact not_mem_of_once once hg

end Games

namespace Hub

/-- The sum of a quantity over some games. -/
def pairSum (h : Hub) (games : List (Nat × Nat)) (q : Client → Client → Nat) : Nat :=
  (games.map fun g => q (h.client g.1) (h.client g.2)).sum

/-- Where only two clients change, and these stay where they are, all stay where they are. -/
theorem device_eq_of_others {h h' : Hub} {a b : Nat}
    (others : ∀ z, z ≠ a → z ≠ b → (h'.client z).stirred = (h.client z).stirred)
    (homes : (h'.client a).device = (h.client a).device ∧
      (h'.client b).device = (h.client b).device) (z : Nat) :
    (h'.client z).device = (h.client z).device := by
  by_cases ha : z = a
  · exact ha ▸ homes.1
  · by_cases hb : z = b
    · exact hb ▸ homes.2
    · exact device_eq_of_stirred (others z ha hb)

section PairSum

variable {h h' : Hub} {games : List (Nat × Nat)} {q : Client → Client → Nat}

theorem pairSum_cons (h : Hub) (g : Nat × Nat) (games : List (Nat × Nat))
    (q : Client → Client → Nat) :
    h.pairSum (g :: games) q = q (h.client g.1) (h.client g.2) + h.pairSum games q := rfl

theorem pairSum_congr (hq : Calm q)
    (same : ∀ z ∈ members games, (h'.client z).stirred = (h.client z).stirred) :
    h'.pairSum games q = h.pairSum games q := by
  induction games with
  | nil => rfl
  | cons g rest ih =>
    simp only [members_cons, List.mem_cons, forall_eq_or_imp] at same
    obtain ⟨h₁, h₂, hrest⟩ := same
    rw [pairSum_cons, pairSum_cons, ih hrest, hq.congr h₁ h₂]

/-- What happens in one game changes a sum by what it changes there. -/
theorem pairSum_update (hq : Calm q) (once : (members games).Nodup) {g : Nat × Nat} (hg : g ∈ games)
    (others : ∀ z, z ≠ g.1 → z ≠ g.2 → (h'.client z).stirred = (h.client z).stirred) :
    h'.pairSum games q + q (h.client g.1) (h.client g.2) =
      h.pairSum games q + q (h'.client g.1) (h'.client g.2) := by
  induction games with
  | nil => cases hg
  | cons k rest ih =>
    have honce := once
    simp only [members_cons, List.nodup_cons, List.mem_cons, not_or] at honce
    obtain ⟨⟨-, h₁⟩, h₂, hrest⟩ := honce
    rw [pairSum_cons, pairSum_cons]
    rcases List.mem_cons.mp hg with rfl | hmem
    · have : h'.pairSum rest q = h.pairSum rest q := pairSum_congr hq fun z hz =>
        others z (fun e => h₁ (e ▸ hz)) (fun e => h₂ (e ▸ hz))
      omega
    · have hk : q (h'.client k.1) (h'.client k.2) = q (h.client k.1) (h.client k.2) := by
        have hne : ∀ z, z ∈ members rest → k.1 ≠ z ∧ k.2 ≠ z := fun z hz =>
          ⟨fun e => h₁ (e ▸ hz), fun e => h₂ (e ▸ hz)⟩
        have hg₁ := hne g.1 (mem_members.mpr ⟨g, hmem, .inl rfl⟩)
        have hg₂ := hne g.2 (mem_members.mpr ⟨g, hmem, .inr rfl⟩)
        exact hq.congr (others _ hg₁.1 hg₂.1) (others _ hg₁.2 hg₂.2)
      have := ih hrest hmem
      omega

/-- A sum without the game of a client. -/
theorem pairSum_filter (once : (members games).Nodup) {g : Nat × Nat} (hg : g ∈ games) {x : Nat}
    (hx : g.1 = x ∨ g.2 = x) :
    h.pairSum (games.filter fun g => g.1 != x && g.2 != x) q + q (h.client g.1) (h.client g.2) =
      h.pairSum games q := by
  induction games with
  | nil => cases hg
  | cons k rest ih =>
    rcases List.mem_cons.mp hg with rfl | hmem
    · rw [filter_cons_of_mem once hx, pairSum_cons]
      omega
    · have hother : (k.1 != x && k.2 != x) = true := by
        by_contra hno
        have hkx : k.1 = x ∨ k.2 = x := (isOther_eq_false_iff k x).mp (Bool.not_eq_true _ ▸ hno)
        obtain rfl := eq_of_mem_game once hg List.mem_cons_self hx hkx
        exact not_mem_of_once once hmem
      have hrest : (members rest).Nodup := by
        simp only [members_cons, List.nodup_cons] at once
        exact once.2.2
      rw [List.filter_cons]
      simp only [hother, if_true, pairSum_cons]
      have := ih hrest hmem
      omega

/-- What one game adds is a part of the sum. -/
theorem le_pairSum {g : Nat × Nat} (hg : g ∈ games) :
    q (h.client g.1) (h.client g.2) ≤ h.pairSum games q :=
  List.le_sum_of_mem (List.mem_map_of_mem (f := fun g => q (h.client g.1) (h.client g.2)) hg)

theorem pairSum_add (q q' : Client → Client → Nat) :
    h.pairSum games (fun x y => q x y + q' x y) = h.pairSum games q + h.pairSum games q' := by
  induction games with
  | nil => rfl
  | cons g rest ih =>
    simp only [pairSum_cons, ih]
    omega

theorem pairSum_le {q' : Client → Client → Nat}
    (hle : ∀ g ∈ games, q (h.client g.1) (h.client g.2) ≤ q' (h.client g.1) (h.client g.2)) :
    h.pairSum games q ≤ h.pairSum games q' := by
  induction games with
  | nil => exact Nat.le_refl _
  | cons g rest ih =>
    rw [pairSum_cons, pairSum_cons]
    exact Nat.add_le_add (hle g List.mem_cons_self)
      (ih fun g' hg' => hle g' (List.mem_cons_of_mem _ hg'))

end PairSum

end Hub

end Goban
