import Goban.Proofs.Batch.Games

/-!
# The games on a device

The three counts of a device are sums over the live games (`Census`): the games registered on it,
those whose thread waits for another device, and those whose request is under way on it. Each
operation of a hub keeps the census. Most of them move one client of one game from a phase to
another (`Census.move`); opening and closing a game are done in two parts when its clients are on
two devices.
-/

namespace Goban

open Client

/-- The clients of a hub are paired in games, and the counts of its devices are the sums over them.
-/
structure Census (h : Hub) (games : List (Nat × Nat)) : Prop where
  once : (members games).Nodup
  known : ∀ x ∈ members games, x < h.clients.size
  home : ∀ x < h.clients.size, (h.client x).device < h.devices.size
  free : ∀ x, x ∉ members games → (h.client x).AtRest
  bond : ∀ g ∈ games, Bond (h.client g.1) (h.client g.2) g.1 g.2
  live : ∀ i, (h.device i).live = h.pairSum games (enrolls i)
  away : ∀ i, (h.device i).away = h.pairSum games fun x y => x.awayFrom i + y.awayFrom i
  asking : ∀ i, (h.device i).asking = h.pairSum games fun x y => x.asks i + y.asks i

namespace Census

variable {h h' : Hub} {games : List (Nat × Nat)} {a b x y : Nat}

/-! ## Changes of nothing, of one game, of one client -/

/-- What tells neither phases nor counts apart keeps the census. -/
theorem calm (hc : Census h games) (hsize : h'.clients.size = h.clients.size)
    (hdevices : h'.devices.size = h.devices.size)
    (same : ∀ z, (h'.client z).stirred = (h.client z).stirred)
    (counts : ∀ i, (h'.device i).live = (h.device i).live ∧ (h'.device i).away = (h.device i).away ∧
      (h'.device i).asking = (h.device i).asking) : Census h' games where
  once := hc.once
  known z hz := hsize ▸ hc.known z hz
  home z hz := by
    have hdev : (h'.client z).device = (h.client z).device := device_eq_of_stirred (same z)
    rw [hdev, hdevices]
    exact hc.home z (hsize ▸ hz)
  free z hz := AtRest_congr (same z) (hc.free z hz)
  bond g hg := (hc.bond g hg).congr (same _) (same _)
  live i := by rw [(counts i).1, hc.live, Hub.pairSum_congr (calm_enrolls i) fun z _ => same z]
  away i := by rw [(counts i).2.1, hc.away, Hub.pairSum_congr (calm_away i) fun z _ => same z]
  asking i := by rw [(counts i).2.2, hc.asking, Hub.pairSum_congr (calm_asks i) fun z _ => same z]

theorem changeGame (hc : Census h games) {g : Nat × Nat} (hg : g ∈ games)
    (hsize : h'.clients.size = h.clients.size) (hdevices : h'.devices.size = h.devices.size)
    (others : ∀ z, z ≠ g.1 → z ≠ g.2 → (h'.client z).stirred = (h.client z).stirred)
    (homes : (h'.client g.1).device = (h.client g.1).device ∧
      (h'.client g.2).device = (h.client g.2).device)
    (bond : Bond (h'.client g.1) (h'.client g.2) g.1 g.2)
    (live : ∀ i, (h'.device i).live + enrolls i (h.client g.1) (h.client g.2) =
      (h.device i).live + enrolls i (h'.client g.1) (h'.client g.2))
    (away : ∀ i, (h'.device i).away + ((h.client g.1).awayFrom i + (h.client g.2).awayFrom i) =
      (h.device i).away + ((h'.client g.1).awayFrom i + (h'.client g.2).awayFrom i))
    (asking : ∀ i, (h'.device i).asking + ((h.client g.1).asks i + (h.client g.2).asks i) =
      (h.device i).asking + ((h'.client g.1).asks i + (h'.client g.2).asks i)) :
    Census h' games where
  once := hc.once
  known z hz := hsize ▸ hc.known z hz
  home z hz := by
    rw [Hub.device_eq_of_others others homes z, hdevices]
    exact hc.home z (hsize ▸ hz)
  free z hz := by
    have hne : g.1 ≠ z ∧ g.2 ≠ z := by
      constructor <;> rintro rfl <;> exact hz (mem_members.mpr ⟨g, hg, by simp⟩)
    exact AtRest_congr (others z hne.1.symm hne.2.symm) (hc.free z hz)
  bond k hk := by
    by_cases hkg : k = g
    · exact hkg ▸ bond
    · have hne : ∀ z, k.1 = z ∨ k.2 = z → z ≠ g.1 ∧ z ≠ g.2 := fun z hz =>
        ⟨fun e => hkg (eq_of_mem_game hc.once hk hg hz (.inl e.symm)),
          fun e => hkg (eq_of_mem_game hc.once hk hg hz (.inr e.symm))⟩
      have h₁ := hne k.1 (.inl rfl)
      have h₂ := hne k.2 (.inr rfl)
      exact (hc.bond k hk).congr (others _ h₁.1 h₁.2) (others _ h₂.1 h₂.2)
  live i := by
    have hsum := Hub.pairSum_update (calm_enrolls i) hc.once hg others
    have hlive := live i
    rw [hc.live] at hlive
    omega
  away i := by
    have hsum := Hub.pairSum_update (calm_away i) hc.once hg others
    have haway := away i
    rw [hc.away] at haway
    omega
  asking i := by
    have hsum := Hub.pairSum_update (calm_asks i) hc.once hg others
    have hasking := asking i
    rw [hc.asking] at hasking
    omega

/-- The two clients of one game change, whichever of them is the first one. -/
theorem change (hc : Census h games) (hg : (x, y) ∈ games ∨ (y, x) ∈ games)
    (hsize : h'.clients.size = h.clients.size) (hdevices : h'.devices.size = h.devices.size)
    (others : ∀ z, z ≠ x → z ≠ y → (h'.client z).stirred = (h.client z).stirred)
    (homes : (h'.client x).device = (h.client x).device ∧
      (h'.client y).device = (h.client y).device)
    (bond : Bond (h'.client x) (h'.client y) x y ∧ Bond (h'.client y) (h'.client x) y x)
    (live : ∀ i, (h'.device i).live + enrolls i (h.client x) (h.client y) =
      (h.device i).live + enrolls i (h'.client x) (h'.client y))
    (away : ∀ i, (h'.device i).away + ((h.client x).awayFrom i + (h.client y).awayFrom i) =
      (h.device i).away + ((h'.client x).awayFrom i + (h'.client y).awayFrom i))
    (asking : ∀ i, (h'.device i).asking + ((h.client x).asks i + (h.client y).asks i) =
      (h.device i).asking + ((h'.client x).asks i + (h'.client y).asks i)) : Census h' games := by
  rcases hg with hg | hg
  · exact hc.changeGame hg hsize hdevices others homes bond.1 live away asking
  · refine hc.changeGame hg hsize hdevices (fun z hy hx => others z hx hy) homes.symm bond.2
      (fun i => ?_) (fun i => ?_) fun i => ?_
    · rw [enrolls_comm, enrolls_comm i (h'.client y)]
      exact live i
    · rw [Nat.add_comm (awayFrom i (h.client y)), Nat.add_comm (awayFrom i (h'.client y))]
      exact away i
    · rw [Nat.add_comm (asks i (h.client y)), Nat.add_comm (asks i (h'.client y))]
      exact asking i

/-- A client that has anything to do has the turn, or opens or closes its game. -/
theorem status (hc : Census h games) (hidle : (h.client x).phase ≠ .idle)
    (hheld : (h.client x).phase ≠ .held) :
    ∃ y, ((x, y) ∈ games ∨ (y, x) ∈ games) ∧ (Leads (h.client x) (h.client y) ∨
      (x, y) ∈ games ∧ Opens (h.client x) (h.client y) y ∨ Closes (h.client x) (h.client y) y) := by
  have hx : x ∈ members games := by
    by_contra hno
    exact hidle (hc.free x hno).1
  obtain ⟨⟨a, b⟩, hg, hab⟩ := mem_members.mp hx
  have hbond := hc.bond _ hg
  simp only at hab hbond
  rcases hab with rfl | rfl
  · refine ⟨b, .inl hg, ?_⟩
    cases hbond with
    | leads ht => exact .inl ht
    | leads' ht => exact absurd ht.idle hidle
    | opens ho => exact .inr (.inl ⟨hg, ho⟩)
    | closes ho => exact .inr (.inr ho)
    | closes' ho => exact absurd ho.held hheld
  · refine ⟨a, .inr hg, ?_⟩
    cases hbond with
    | leads ht => exact absurd ht.idle hidle
    | leads' ht => exact .inl ht
    | opens ho => exact absurd ho.held hheld
    | closes ho => exact absurd ho.held hheld
    | closes' ho => exact .inr (.inr ho)

theorem exists_leads (hc : Census h games) (hp : (h.client x).phase.isUnderway = true) :
    ∃ y, ((x, y) ∈ games ∨ (y, x) ∈ games) ∧ Leads (h.client x) (h.client y) := by
  have hne : (h.client x).phase ≠ .idle ∧ (h.client x).phase ≠ .held := by
    constructor <;> intro he <;> rw [he] at hp <;> cases hp
  obtain ⟨y, hg, ht | ⟨-, ho⟩ | ho⟩ := hc.status hne.1 hne.2
  · exact ⟨y, hg, ht⟩
  · rw [ho.opening] at hp
    cases hp
  · rw [ho.closing] at hp
    cases hp

theorem exists_opens (hc : Census h games) (hp : (h.client x).phase = .opening y) :
    (x, y) ∈ games ∧ Opens (h.client x) (h.client y) y := by
  obtain ⟨z, -, ht | ⟨hg, ho⟩ | ho⟩ := hc.status (x := x) (by simp [hp]) (by simp [hp])
  · have hfits := ht.fits
    rw [fits, hp] at hfits
    cases hfits
  · obtain rfl := Phase.opening.inj (hp.symm.trans ho.opening)
    exact ⟨hg, ho⟩
  · cases hp.symm.trans ho.closing

theorem exists_closes (hc : Census h games) (hp : (h.client x).phase = .closing y) :
    ((x, y) ∈ games ∨ (y, x) ∈ games) ∧ Closes (h.client x) (h.client y) y := by
  obtain ⟨z, hg, ht | ⟨-, ho⟩ | ho⟩ := hc.status (x := x) (by simp [hp]) (by simp [hp])
  · have hfits := ht.fits
    rw [fits, hp] at hfits
    cases hfits
  · cases hp.symm.trans ho.opening
  · obtain rfl := Phase.closing.inj (hp.symm.trans ho.closing)
    exact ⟨hg, ho⟩

/-- A client that has the turn goes from one phase to another. -/
theorem move (hc : Census h games) (hg : (x, y) ∈ games ∨ (y, x) ∈ games)
    (turn : Leads (h.client x) (h.client y)) (hsize : h'.clients.size = h.clients.size)
    (hdevices : h'.devices.size = h.devices.size) {p : Phase}
    (hx : h'.client x = { h.client x with phase := p }) (fits : (h'.client x).fits = true)
    (others : ∀ z, z ≠ x → (h'.client z).stirred = (h.client z).stirred)
    (live : ∀ i, (h'.device i).live = (h.device i).live)
    (away : ∀ i, (h'.device i).away + (h.client x).awayFrom i =
      (h.device i).away + (h'.client x).awayFrom i)
    (asking : ∀ i, (h'.device i).asking + (h.client x).asks i =
      (h.device i).asking + (h'.client x).asks i) : Census h' games := by
  have hne : y ≠ x := by
    rintro rfl
    rcases hg with hg | hg <;> exact fst_ne_snd hc.once hg rfl
  have hy : (h'.client y).stirred = (h.client y).stirred := others y hne
  have turn' : Leads (h'.client x) (h'.client y) := by
    rw [← leads_stirred_iff, hy]
    have hx' : Leads (h'.client x) (h.client y) := by
      refine ⟨?_, turn.inGame', ?_, ?_, fits, turn.idle⟩
      · rw [hx]
        exact turn.inGame
      · rw [hx]
        exact turn.apart
      · rw [hx]
        exact turn.apart'
    exact leads_stirred_iff.mpr hx'
  have hdev : (h'.client x).device = (h.client x).device := by rw [hx]
  have hdev' : (h'.client y).device = (h.client y).device := device_eq_of_stirred hy
  have henrolls : ∀ i,
      enrolls i (h'.client x) (h'.client y) = enrolls i (h.client x) (h.client y) :=
    fun i => by rw [turn.enrolls_eq, turn'.enrolls_eq, hdev, hdev']
  have hzero : ∀ i, (h'.client y).awayFrom i = (h.client y).awayFrom i ∧
      (h'.client y).asks i = (h.client y).asks i := fun i => by
    rw [← awayFrom_stirred, ← asks_stirred, hy, awayFrom_stirred, asks_stirred]
    exact ⟨rfl, rfl⟩
  refine hc.change hg hsize hdevices (fun z hz _ => others z hz) ⟨hdev, hdev'⟩
    ⟨.leads turn', .leads' turn'⟩ (fun i => ?_) (fun i => ?_) fun i => ?_
  · rw [live, henrolls]
  · have := away i
    simp only [(hzero i).1]
    omega
  · have := asking i
    simp only [(hzero i).2]
    omega

/-! ## Games that begin and end -/

theorem insert (hc : Census h games) (ha : a ∉ members games) (hb : b ∉ members games) (hab : a ≠ b)
    (known : a < h.clients.size ∧ b < h.clients.size) (hsize : h'.clients.size = h.clients.size)
    (hdevices : h'.devices.size = h.devices.size)
    (others : ∀ z, z ≠ a → z ≠ b → (h'.client z).stirred = (h.client z).stirred)
    (homes : (h'.client a).device = (h.client a).device ∧
      (h'.client b).device = (h.client b).device)
    (bond : Bond (h'.client a) (h'.client b) a b)
    (quiet : ∀ i, (h'.client a).awayFrom i + (h'.client b).awayFrom i = 0 ∧
      (h'.client a).asks i + (h'.client b).asks i = 0)
    (live : ∀ i, (h'.device i).live = (h.device i).live + enrolls i (h'.client a) (h'.client b))
    (counts : ∀ i, (h'.device i).away = (h.device i).away ∧
      (h'.device i).asking = (h.device i).asking) : Census h' ((a, b) :: games) := by
  have same : ∀ z ∈ members games, (h'.client z).stirred = (h.client z).stirred := fun z hz =>
    others z (fun e => ha (e ▸ hz)) (fun e => hb (e ▸ hz))
  refine ⟨?_, ?_, ?_, ?_, ?_, fun i => ?_, fun i => ?_, fun i => ?_⟩
  · simp only [members_cons, List.nodup_cons, List.mem_cons, not_or]
    exact ⟨⟨hab, ha⟩, hb, hc.once⟩
  · intro z hz
    rw [hsize]
    simp only [members_cons, List.mem_cons] at hz
    rcases hz with rfl | rfl | hz
    · exact known.1
    · exact known.2
    · exact hc.known z hz
  · intro z hz
    rw [Hub.device_eq_of_others others homes z, hdevices]
    exact hc.home z (hsize ▸ hz)
  · intro z hz
    simp only [members_cons, List.mem_cons, not_or] at hz
    exact AtRest_congr (others z hz.1 hz.2.1) (hc.free z hz.2.2)
  · intro g hg
    rcases List.mem_cons.mp hg with rfl | hg
    · exact bond
    · exact (hc.bond g hg).congr (same _ (mem_members.mpr ⟨g, hg, .inl rfl⟩))
        (same _ (mem_members.mpr ⟨g, hg, .inr rfl⟩))
  · rw [Hub.pairSum_cons, Hub.pairSum_congr (calm_enrolls i) same, live, hc.live]
    exact Nat.add_comm _ _
  · rw [Hub.pairSum_cons, Hub.pairSum_congr (calm_away i) same, (counts i).1, hc.away, (quiet i).1]
    exact (Nat.zero_add _).symm
  · rw [Hub.pairSum_cons, Hub.pairSum_congr (calm_asks i) same, (counts i).2, hc.asking,
      (quiet i).2]
    exact (Nat.zero_add _).symm

theorem removeGame (hc : Census h games) {g : Nat × Nat} (hg : g ∈ games) (hx : g.1 = x ∨ g.2 = x)
    (hsize : h'.clients.size = h.clients.size) (hdevices : h'.devices.size = h.devices.size)
    (others : ∀ z, z ≠ g.1 → z ≠ g.2 → (h'.client z).stirred = (h.client z).stirred)
    (homes : (h'.client g.1).device = (h.client g.1).device ∧
      (h'.client g.2).device = (h.client g.2).device)
    (rest : (h'.client g.1).AtRest ∧ (h'.client g.2).AtRest)
    (quiet : ∀ i, (h.client g.1).awayFrom i + (h.client g.2).awayFrom i = 0 ∧
      (h.client g.1).asks i + (h.client g.2).asks i = 0)
    (live : ∀ i, (h'.device i).live + enrolls i (h.client g.1) (h.client g.2) = (h.device i).live)
    (counts : ∀ i, (h'.device i).away = (h.device i).away ∧
      (h'.device i).asking = (h.device i).asking) :
    Census h' (games.filter fun g => g.1 != x && g.2 != x) := by
  -- The games that stay are those that have no client in common with the one that ends.
  have stays : ∀ {k}, k ∈ games.filter (fun g => g.1 != x && g.2 != x) →
      k ∈ games ∧ ∀ z, k.1 = z ∨ k.2 = z → z ≠ g.1 ∧ z ≠ g.2 := by
    intro k hk
    obtain ⟨hk, hkx⟩ := List.mem_filter.mp hk
    have hno : ¬(k.1 = x ∨ k.2 = x) := fun hkx' => by
      rw [(isOther_eq_false_iff k x).mpr hkx'] at hkx
      cases hkx
    have hkg : k ≠ g := fun e => hno (e ▸ hx)
    exact ⟨hk, fun z hz => ⟨fun e => hkg (eq_of_mem_game hc.once hk hg hz (.inl e.symm)),
      fun e => hkg (eq_of_mem_game hc.once hk hg hz (.inr e.symm))⟩⟩
  have same : ∀ z ∈ members (games.filter fun g => g.1 != x && g.2 != x),
      (h'.client z).stirred = (h.client z).stirred := by
    intro z hz
    obtain ⟨k, hk, hkz⟩ := mem_members.mp hz
    have hne := (stays hk).2 z hkz
    exact others z hne.1 hne.2
  refine ⟨?_, ?_, ?_, ?_, ?_, fun i => ?_, fun i => ?_, fun i => ?_⟩
  · exact hc.once.sublist (List.filter_sublist.flatMap _)
  · intro z hz
    obtain ⟨k, hk, hkz⟩ := mem_members.mp hz
    exact hsize ▸ hc.known z (mem_members.mpr ⟨k, (stays hk).1, hkz⟩)
  · intro z hz
    rw [Hub.device_eq_of_others others homes z, hdevices]
    exact hc.home z (hsize ▸ hz)
  · intro z hz
    by_cases h₁ : z = g.1
    · exact h₁ ▸ rest.1
    · by_cases h₂ : z = g.2
      · exact h₂ ▸ rest.2
      · refine AtRest_congr (others z h₁ h₂) (hc.free z fun hmem => ?_)
        obtain ⟨k, hk, hkz⟩ := mem_members.mp hmem
        have hkg : k ≠ g := fun e => by
          subst e
          rcases hkz with rfl | rfl
          · exact h₁ rfl
          · exact h₂ rfl
        refine hz (mem_members.mpr ⟨k, List.mem_filter.mpr ⟨hk, ?_⟩, hkz⟩)
        by_contra hno
        have hkx := (isOther_eq_false_iff k x).mp (Bool.not_eq_true _ ▸ hno)
        exact hkg (eq_of_mem_game hc.once hk hg hkx hx)
  · intro k hk
    exact (hc.bond k (stays hk).1).congr (same _ (mem_members.mpr ⟨k, hk, .inl rfl⟩))
      (same _ (mem_members.mpr ⟨k, hk, .inr rfl⟩))
  · have hsum := Hub.pairSum_filter (h := h) (q := enrolls i) hc.once hg hx
    have := live i
    rw [hc.live] at this
    rw [Hub.pairSum_congr (calm_enrolls i) same]
    omega
  · have hsum := Hub.pairSum_filter (h := h) (q := fun x y => x.awayFrom i + y.awayFrom i)
      hc.once hg hx
    rw [Hub.pairSum_congr (calm_away i) same, (counts i).1, hc.away]
    have := (quiet i).1
    omega
  · have hsum := Hub.pairSum_filter (h := h) (q := fun x y => x.asks i + y.asks i) hc.once hg hx
    rw [Hub.pairSum_congr (calm_asks i) same, (counts i).2, hc.asking]
    have := (quiet i).2
    omega

/-- One game ends, whichever of its clients is the first one. -/
theorem remove (hc : Census h games) (hg : (x, y) ∈ games ∨ (y, x) ∈ games)
    (hsize : h'.clients.size = h.clients.size) (hdevices : h'.devices.size = h.devices.size)
    (others : ∀ z, z ≠ x → z ≠ y → (h'.client z).stirred = (h.client z).stirred)
    (homes : (h'.client x).device = (h.client x).device ∧
      (h'.client y).device = (h.client y).device)
    (rest : (h'.client x).AtRest ∧ (h'.client y).AtRest)
    (quiet : ∀ i, (h.client x).awayFrom i + (h.client y).awayFrom i = 0 ∧
      (h.client x).asks i + (h.client y).asks i = 0)
    (live : ∀ i, (h'.device i).live + enrolls i (h.client x) (h.client y) = (h.device i).live)
    (counts : ∀ i, (h'.device i).away = (h.device i).away ∧
      (h'.device i).asking = (h.device i).asking) :
    Census h' (games.filter fun g => g.1 != x && g.2 != x) := by
  rcases hg with hg | hg
  · exact hc.removeGame hg (.inl rfl) hsize hdevices others homes rest quiet live counts
  · refine hc.removeGame hg (.inr rfl) hsize hdevices (fun z hy hx => others z hx hy) homes.symm
      rest.symm (fun i => ?_) (fun i => ?_) counts
    · have := quiet i
      simp only
      omega
    · rw [enrolls_comm]
      exact live i

end Census

end Goban
