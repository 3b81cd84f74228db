import Goban.Proofs.Batch.Census

/-!
# What the events of a hub do to its games

Every event moves one client, opens or closes a part of a game, or touches no count at all. Each
lemma here keeps the census through one of them.
-/

namespace Goban

open Client

namespace Census

variable {h h' : Hub} {games : List (Nat × Nat)} {a b i x y : Nat} {d : Device} {p : Phase}

/-! ## No count changes -/

theorem measure (hc : Census h games) (ms : List Measurement) : Census (h.measure ms) games :=
  ⟨hc.once, hc.known, hc.home, hc.free, hc.bond, hc.live, hc.away, hc.asking⟩

theorem wake (hc : Census h games) (i : Nat) : Census (h.wake i) games :=
  hc.calm (h.size_wake i) rfl (fun z => by simp) fun _ => ⟨rfl, rfl, rfl⟩

theorem stir (hc : Census h games) (x : Nat) : Census (h.stir x) games := by
  refine hc.calm (h.size_changeClient x _) rfl (fun z => ?_) fun _ => ⟨rfl, rfl, rfl⟩
  rcases Hub.client_changeClient_cases h x z fun c => c.rouse c.device with hz | ⟨rfl, -, hz⟩ <;>
    simp only [Hub.stir, hz, stirred_rouse]

theorem sleep (hc : Census h games) {t : Nat} (hp : (h.client x).phase = .awake t) :
    Census (h.setPhase x (.asleep t)) games := by
  refine hc.calm (h.size_changeClient x _) rfl (fun z => ?_) fun _ => ⟨rfl, rfl, rfl⟩
  rcases Hub.client_changeClient_cases h x z ({ · with phase := .asleep t }) with hz | ⟨rfl, -, hz⟩
  · rw [Hub.setPhase, hz]
  · rw [Hub.setPhase, hz]
    simp only [stirred, hp, Phase.stirred]

/-- A device may change in everything but its counts. -/
theorem setDevice (hc : Census h games) (live : d.live = (h.device i).live)
    (away : d.away = (h.device i).away) (asking : d.asking = (h.device i).asking) :
    Census (h.setDevice i d) games := by
  refine hc.calm rfl (h.size_setDevice i d) (fun _ => rfl) fun j => ?_
  rcases Hub.device_setDevice_cases h i j d with hd | ⟨rfl, -, hd⟩
  · rw [hd]
    exact ⟨rfl, rfl, rfl⟩
  · rw [hd]
    exact ⟨live, away, asking⟩

theorem flush (hc : Census h games) (i : Nat) : Census (h.flush i) games := by
  unfold Hub.flush
  simp only
  split
  · exact hc
  · have hset : Census (h.setDevice i (h.device i).taken) games := hc.setDevice rfl rfl rfl
    exact ⟨hset.once, hset.known, hset.home, hset.free, hset.bond, hset.live, hset.away,
      hset.asking⟩

theorem addClient (hc : Census h games) {c : Client} (hi : c.device < h.devices.size)
    (hrest : c.AtRest) : Census { h with clients := h.clients.push c } games := by
  have hclient := fun z => Hub.client_push (h := h) c z
  have hold : ∀ z ∈ members games,
      Hub.client { h with clients := h.clients.push c } z = h.client z :=
    fun z hz => by
      rw [hclient, if_neg]
      have := hc.known z hz
      omega
  have same : ∀ q : Client → Client → Nat, Calm q →
      Hub.pairSum { h with clients := h.clients.push c } games q = h.pairSum games q := fun q hq =>
    Hub.pairSum_congr hq fun z hz => by rw [hold z hz]
  refine ⟨hc.once, fun z hz => ?_, fun z hz => ?_, fun z hz => ?_, fun g hg => ?_, fun i => ?_,
    fun i => ?_, fun i => ?_⟩
  · have := hc.known z hz
    simp only [Array.size_push]
    omega
  · rw [hclient]
    split
    · exact hi
    · refine hc.home z ?_
      simp only [Array.size_push] at hz
      omega
  · rw [hclient]
    split
    · exact hrest
    · exact hc.free z hz
  · rw [hold _ (mem_members.mpr ⟨g, hg, .inl rfl⟩), hold _ (mem_members.mpr ⟨g, hg, .inr rfl⟩)]
    exact hc.bond g hg
  · rw [same _ (calm_enrolls i), ← hc.live]
    rfl
  · rw [same _ (calm_away i), ← hc.away]
    rfl
  · rw [same _ (calm_asks i), ← hc.asking]
    rfl

/-! ## One client moves -/

section Move

variable (hc : Census h games) (hg : (x, y) ∈ games ∨ (y, x) ∈ games)

include hc hg

theorem known_of_game : x < h.clients.size :=
  hc.known x (mem_members.mpr (hg.elim (fun hg => ⟨_, hg, .inl rfl⟩) fun hg => ⟨_, hg, .inr rfl⟩))

theorem home_of_game : (h.client x).device < h.devices.size := hc.home x (hc.known_of_game hg)

/-- Two clients of a game that have nothing under way may both begin. -/
theorem leads_of_idle (hx : (h.client x).phase = .idle) (hy : (h.client y).phase = .idle) :
    Leads (h.client x) (h.client y) := by
  have hbond : ∀ {c c' : Client} {a b : Nat}, Bond c c' a b → c.phase = .idle → c'.phase = .idle →
      Leads c c' ∧ Leads c' c := by
    intro c c' a b hbond hc hc'
    cases hbond with
    | leads h => exact ⟨h, h.inGame', h.inGame, h.apart', h.apart, by rw [fits, hc'], hc⟩
    | leads' h => exact ⟨⟨h.inGame', h.inGame, h.apart', h.apart, by rw [fits, hc], hc'⟩, h⟩
    | opens h => cases hc.symm.trans h.opening
    | closes h => cases hc.symm.trans h.closing
    | closes' h => cases hc.symm.trans h.held
  rcases hg with hg | hg
  · exact (hbond (hc.bond _ hg) hx hy).1
  · exact (hbond (hc.bond _ hg) hy hx).2

theorem counts_ge (i : Nat) : (h.client x).asks i ≤ (h.device i).asking ∧
    (h.client x).awayFrom i ≤ (h.device i).away := by
  rw [hc.asking, hc.away]
  rcases hg with hg | hg
  · have hasks := Hub.le_pairSum (h := h) (q := fun x y => x.asks i + y.asks i) hg
    have haway := Hub.le_pairSum (h := h) (q := fun x y => x.awayFrom i + y.awayFrom i) hg
    simp only at hasks haway
    omega
  · have hasks := Hub.le_pairSum (h := h) (q := fun x y => x.asks i + y.asks i) hg
    have haway := Hub.le_pairSum (h := h) (q := fun x y => x.awayFrom i + y.awayFrom i) hg
    simp only at hasks haway
    omega

/-- What the other games of a device ask and are away for leaves room for this one. -/
theorem room (henrolls : enrolls i (h.client x) (h.client y) = 1) :
    (h.device i).asking + (h.device i).away + 1 ≤ (h.device i).live +
      ((h.client x).asks i + (h.client y).asks i) +
        ((h.client x).awayFrom i + (h.client y).awayFrom i) := by
  have hslack : ∀ g ∈ games, (h.device i).asking + (h.device i).away +
      enrolls i (h.client g.1) (h.client g.2) ≤ (h.device i).live +
        ((h.client g.1).asks i + (h.client g.2).asks i) +
          ((h.client g.1).awayFrom i + (h.client g.2).awayFrom i) := by
    intro g hg
    have hle : h.pairSum (games.filter fun k => k.1 != g.1 && k.2 != g.1)
        (fun x y => x.asks i + y.asks i + (x.awayFrom i + y.awayFrom i)) ≤
          h.pairSum (games.filter fun k => k.1 != g.1 && k.2 != g.1) (enrolls i) :=
      Hub.pairSum_le fun k hk => (hc.bond k (List.mem_filter.mp hk).1).asks_add_awayFrom_le i
    rw [Hub.pairSum_add (fun x y => x.asks i + y.asks i)] at hle
    have hlive := Hub.pairSum_filter (h := h) (q := enrolls i) hc.once hg (.inl rfl)
    have haway := Hub.pairSum_filter (h := h) (q := fun x y => x.awayFrom i + y.awayFrom i)
      hc.once hg (.inl rfl)
    have hasking := Hub.pairSum_filter (h := h) (q := fun x y => x.asks i + y.asks i)
      hc.once hg (.inl rfl)
    rw [← hc.live] at hlive
    rw [← hc.away] at haway
    rw [← hc.asking] at hasking
    omega
  rcases hg with hg | hg
  · have := hslack _ hg
    simp only [henrolls] at this
    omega
  · have := hslack _ hg
    simp only [enrolls_comm i (h.client y), henrolls] at this
    omega

variable (turn : Leads (h.client x) (h.client y))

include turn

theorem room_of_leads (hi : (h.client x).device = i ∨ (h.client y).device = i) :
    (h.device i).asking + (h.device i).away + 1 ≤
      (h.device i).live + ((h.client x).asks i + (h.client x).awayFrom i) := by
  obtain ⟨-, hy, hy'⟩ := turn.counts_le i
  have henrolls := turn.enrolls_eq i
  rw [if_pos hi] at henrolls
  have := hc.room hg henrolls
  omega

/-- The client that has the turn changes a device and its own phase together. -/
theorem exchange (hi : i < h.devices.size)
    (fits : Client.fits { h.client x with phase := p } = true)
    (live : d.live = (h.device i).live)
    (away : d.away + (h.client x).awayFrom i =
      (h.device i).away + Client.awayFrom i { h.client x with phase := p })
    (asking : d.asking + (h.client x).asks i =
      (h.device i).asking + Client.asks i { h.client x with phase := p })
    (others : ∀ j, j ≠ i →
      Client.awayFrom j { h.client x with phase := p } = (h.client x).awayFrom j ∧
        Client.asks j { h.client x with phase := p } = (h.client x).asks j) :
    Census ((h.setDevice i d).setPhase x p) games := by
  have hx := hc.known_of_game hg
  have hclient : ((h.setDevice i d).setPhase x p).client x = { h.client x with phase := p } :=
    Hub.client_changeClient_self (h := h.setDevice i d) _ hx
  have hdevice : ∀ j, ((h.setDevice i d).setPhase x p).device j =
      if j = i then d else h.device j := fun j => Hub.device_setDevice j d hi
  refine hc.move hg turn ((h.setDevice i d).size_changeClient x _) (h.size_setDevice i d) hclient
    (hclient ▸ fits) (fun z hz => ?_) (fun j => ?_) (fun j => ?_) fun j => ?_
  · rw [Hub.setPhase, Hub.client_changeClient_ne _ _ _ _ hz]
    rfl
  · rw [hdevice]
    split
    · subst j
      exact live
    · rfl
  · rw [hdevice, hclient]
    split
    · subst j
      exact away
    · rw [(others j ‹_›).1]
  · rw [hdevice, hclient]
    split
    · subst j
      exact asking
    · rw [(others j ‹_›).2]

/-- The client that has the turn does something that no device counts. -/
theorem setPhase (fits : Client.fits { h.client x with phase := p } = true)
    (same : ∀ j, Client.awayFrom j { h.client x with phase := p } = (h.client x).awayFrom j ∧
      Client.asks j { h.client x with phase := p } = (h.client x).asks j) :
    Census (h.setPhase x p) games := by
  have hx := hc.known_of_game hg
  have hclient : (h.setPhase x p).client x = { h.client x with phase := p } :=
    Hub.client_changeClient_self _ hx
  refine hc.move hg turn (h.size_changeClient x _) rfl hclient (hclient ▸ fits) (fun z hz => ?_)
    (fun j => rfl) (fun j => ?_) fun j => ?_
  · rw [Hub.setPhase, Hub.client_changeClient_ne _ _ _ _ hz]
  · rw [hclient, (same j).1]
    rfl
  · rw [hclient, (same j).2]
    rfl

end Move

section Phases

variable {positions : List Position} {answer : List Evaluation} {batch : List Request} {t : Nat}

theorem request (hc : Census h games) (hg : (x, y) ∈ games ∨ (y, x) ∈ games)
    (hx : (h.client x).phase = .idle) (hy : (h.client y).phase = .idle) :
    Census (h.setPhase x (Hub.afterAsking (h.client x) positions)) games := by
  refine hc.setPhase hg (hc.leads_of_idle hg hx hy) ?_ fun j => ?_
  · unfold Hub.afterAsking
    split
    · rfl
    · split
      · assumption
      · rfl
  · unfold Hub.afterAsking
    split
    · simp [awayFrom, asks, hx, Phase.isAway, Phase.ticket?]
    · split
      · simp [awayFrom, asks, hx, Phase.isAway, Phase.ticket?]
      · simp_all [awayFrom, asks, Phase.isAway, Phase.ticket?]

/-- A client that deals with another device has its partner there. -/
theorem exists_opponent (hc : Census h games) (hp : (h.client x).phase.isUnderway = true)
    (hfits : (h.client x).fits = (h.client x).opponentDevice.isSome) :
    ∃ y j, ((x, y) ∈ games ∨ (y, x) ∈ games) ∧ Leads (h.client x) (h.client y) ∧
      (h.client x).opponentDevice = some j ∧ (h.client y).device = j := by
  obtain ⟨y, hg, turn⟩ := hc.exists_leads hp
  obtain ⟨j, hj⟩ := Option.isSome_iff_exists.mp (hfits.symm.trans turn.fits)
  exact ⟨y, j, hg, turn, hj, ((turn.opponentDevice_eq_iff j).mp hj).1⟩

/-- A game whose thread is about to leave a device is registered there and not away yet. -/
theorem leave_isOk (hc : Census h games) (hp : (h.client x).phase = .leaving positions) :
    ∃ d, (h.device ((h.client x).opponentDevice.getD (h.client x).device)).leave = .ok d := by
  obtain ⟨y, j, hg, turn, hj, hy⟩ := hc.exists_opponent (x := x) (by rw [hp]; rfl)
    (by rw [fits, hp])
  have hroom := hc.room_of_leads hg turn (i := j) (.inr hy)
  rw [asks_of_ticket?_eq_none (by rw [hp]; rfl), awayFrom_of_isAway_eq_false (by rw [hp]; rfl)]
    at hroom
  rw [hj, Option.getD_some, Device.leave, if_pos (by omega)]
  exact ⟨_, rfl⟩

theorem leave (hc : Census h games) (hp : (h.client x).phase = .leaving positions)
    (hleave : (h.device ((h.client x).opponentDevice.getD (h.client x).device)).leave = .ok d) :
    Census ((h.setDevice ((h.client x).opponentDevice.getD (h.client x).device) d).setPhase x
      (.submitting positions)) games := by
  obtain ⟨y, j, hg, turn, hj, hy⟩ := hc.exists_opponent (x := x) (by rw [hp]; rfl)
    (by rw [fits, hp])
  have hd := Device.leave_eq_ok hleave
  rw [hj, Option.getD_some] at hd ⊢
  refine hc.exchange hg turn (hy ▸ hc.home_of_game hg.symm) rfl ?_ ?_ ?_ fun k hk => ?_
  · rw [hd]
  · simp [hd, awayFrom, hp, hj, Phase.isAway]
  · simp [hd, asks, hp, Phase.ticket?]
  · simp [awayFrom, asks, hp, hj, Phase.ticket?, Ne.symm hk]

/-- A game whose thread is back from a device was counted as away there. -/
theorem rejoin_isOk (hc : Census h games) (hp : (h.client x).phase = .rejoining answer) :
    ∃ d, (h.device ((h.client x).opponentDevice.getD (h.client x).device)).rejoin = .ok d := by
  obtain ⟨y, j, hg, turn, hj, hy⟩ := hc.exists_opponent (x := x) (by rw [hp]; rfl)
    (by rw [fits, hp])
  have haway := (hc.counts_ge hg j).2
  have hone : (h.client x).awayFrom j = 1 := by simp [awayFrom, hp, hj, Phase.isAway]
  rw [hj, Option.getD_some, Device.rejoin, if_neg (by omega)]
  exact ⟨_, rfl⟩

theorem rejoin (hc : Census h games) (hp : (h.client x).phase = .rejoining answer)
    (hrejoin : (h.device ((h.client x).opponentDevice.getD (h.client x).device)).rejoin = .ok d) :
    Census ((h.setDevice ((h.client x).opponentDevice.getD (h.client x).device) d).setPhase x
      (.answered answer)) games := by
  obtain ⟨y, j, hg, turn, hj, hy⟩ := hc.exists_opponent (x := x) (by rw [hp]; rfl)
    (by rw [fits, hp])
  obtain ⟨hne, hd⟩ := Device.rejoin_eq_ok hrejoin
  rw [hj, Option.getD_some] at hne hd ⊢
  refine hc.exchange hg turn (hy ▸ hc.home_of_game hg.symm) rfl ?_ ?_ ?_ fun k hk => ?_
  · rw [hd]
  · simp only [hd, awayFrom, hp, hj, Phase.isAway]
    simp only [Bool.false_eq_true, and_false, and_self, if_true, if_false]
    omega
  · simp [hd, asks, hp, Phase.ticket?]
  · simp [awayFrom, asks, hp, hj, Phase.ticket?, Ne.symm hk]

/-- A game whose thread makes a request has no other request under way. -/
theorem submit_isOk (hc : Census h games) (hp : (h.client x).phase = .submitting positions) :
    ∃ t d, (h.device (h.client x).device).submit (h.client x).key positions = .ok (t, d) := by
  obtain ⟨y, hg, turn⟩ := hc.exists_leads (x := x) (by rw [hp]; rfl)
  have hroom := hc.room_of_leads hg turn (i := (h.client x).device) (.inl rfl)
  have hopp : (h.client x).awayFrom (h.client x).device = 0 := by
    simp [awayFrom, turn.opponentDevice_eq_iff]
  rw [asks_of_ticket?_eq_none (by rw [hp]; rfl), hopp] at hroom
  rw [Device.submit, if_pos (by omega)]
  exact ⟨_, _, rfl⟩

theorem submit (hc : Census h games) (hp : (h.client x).phase = .submitting positions)
    (hsubmit : (h.device (h.client x).device).submit (h.client x).key positions = .ok (t, d)) :
    Census ((h.setDevice (h.client x).device d).setPhase x (.awake t)) games := by
  obtain ⟨y, hg, turn⟩ := hc.exists_leads (x := x) (by rw [hp]; rfl)
  obtain ⟨-, -, hd⟩ := Device.submit_eq_ok hsubmit
  refine hc.exchange hg turn (hc.home_of_game hg) rfl ?_ ?_ ?_ fun k hk => ?_
  · rw [hd]
  · simp [hd, awayFrom, hp, Phase.isAway]
  · simp [hd, asks, hp, Phase.ticket?]
  · simp [awayFrom, asks, hp, Phase.isAway, Phase.ticket?, Ne.symm hk]

theorem collect (hc : Census h games) (hp : (h.client x).phase = .awake t)
    (hcollect : (h.device (h.client x).device).collect? t = some (answer, d)) :
    Census ((h.setDevice (h.client x).device d).setPhase x
      (Hub.afterCollecting (h.client x) answer)) games := by
  obtain ⟨y, hg, turn⟩ := hc.exists_leads (x := x) (by rw [hp]; rfl)
  obtain ⟨-, hd⟩ := Device.collect?_eq_some hcollect
  have hasks := (hc.counts_ge hg (h.client x).device).1
  have hone : (h.client x).asks (h.client x).device = 1 := by simp [asks, hp, Phase.ticket?]
  have hticket : (Hub.afterCollecting (h.client x) answer).ticket? = none := by
    unfold Hub.afterCollecting
    split <;> rfl
  have hzero : ∀ k, Client.asks k { h.client x with
      phase := Hub.afterCollecting (h.client x) answer } = 0 := asks_of_ticket?_eq_none hticket
  have haway : ∀ k, Client.awayFrom k { h.client x with
      phase := Hub.afterCollecting (h.client x) answer } = (h.client x).awayFrom k := by
    intro k
    unfold Hub.afterCollecting
    split
    · simp [awayFrom, hp, Phase.isAway]
    · simp_all [awayFrom]
  refine hc.exchange hg turn (hc.home_of_game hg) ?_ ?_ ?_ ?_ fun k hk => ⟨haway k, ?_⟩
  · unfold Hub.afterCollecting
    split
    · assumption
    · rfl
  · rw [hd]
  · rw [hd, haway]
  · rw [hzero, hd, hone]
    simp only
    omega
  · rw [hzero]
    simp [asks, Ne.symm hk]

/-- A client takes the requests of a device into a batch. -/
theorem take (hc : Census h games) (hp : (h.client x).phase = .awake t) (i : Nat) :
    Census ((h.setDevice i (h.device i).taken).setPhase x (.running t batch)) games := by
  have hset : Census (h.setDevice i (h.device i).taken) games := hc.setDevice rfl rfl rfl
  obtain ⟨y, hg, turn⟩ := hset.exists_leads (x := x) (by rw [Hub.client_setDevice, hp]; rfl)
  refine hset.setPhase hg turn rfl fun j => ?_
  rw [Hub.client_setDevice]
  simp [awayFrom, asks, hp, Phase.isAway, Phase.ticket?]

theorem publish (hc : Census h games) (hp : (h.client x).phase = .running t batch) (i : Nat)
    (run : Device.BatchRun) :
    Census ((h.setDevice i ((h.device i).publish run)).setPhase x (.awake t)) games := by
  have hset : Census (h.setDevice i ((h.device i).publish run)) games := hc.setDevice rfl rfl rfl
  obtain ⟨y, hg, turn⟩ := hset.exists_leads (x := x) (by rw [Hub.client_setDevice, hp]; rfl)
  refine hset.setPhase hg turn rfl fun j => ?_
  rw [Hub.client_setDevice]
  simp [awayFrom, asks, hp, Phase.isAway, Phase.ticket?]

/-- A client hands out its answer. -/
theorem handOut (hc : Census h games) (hp : (h.client x).phase = .answered answer) :
    Census (h.setPhase x .idle) games := by
  obtain ⟨y, hg, turn⟩ := hc.exists_leads (x := x) (by rw [hp]; rfl)
  refine hc.setPhase hg turn rfl fun j => ?_
  simp [awayFrom, asks, hp, Phase.isAway, Phase.ticket?]

end Phases

/-! ## Games begin and end -/

section Games

theorem leads_entered {c c' : Client} (hc : c.opponentDevice = none)
    (hc' : c'.opponentDevice = none) :
    Leads (Hub.entered c c') (Hub.entered c' c) := by
  refine ⟨rfl, rfl, ?_, ?_, rfl, rfl⟩
  · unfold Apart Hub.entered
    split <;> simp [*]
  · unfold Apart Hub.entered
    split <;> simp [*]

theorem not_mem_members (hfree : ∀ g ∈ games, g.1 ≠ x ∧ g.2 ≠ x) : x ∉ members games := by
  intro hx
  obtain ⟨g, hg, hgx⟩ := mem_members.mp hx
  rcases hgx with hgx | hgx
  · exact (hfree g hg).1 hgx
  · exact (hfree g hg).2 hgx

/-- A game of clients of one device begins. -/
theorem start (hc : Census h games) (hab : a ≠ b) (ha : a < h.clients.size)
    (hb : b < h.clients.size)
    (hfa : a ∉ members games) (hfb : b ∉ members games)
    (hd : (h.client a).device = (h.client b).device) :
    Census ((h.register (h.client a).device).enter a b) ((a, b) :: games) := by
  have hi := hc.home a ha
  obtain ⟨-, -, hoa⟩ := hc.free a hfa
  obtain ⟨-, -, hob⟩ := hc.free b hfb
  obtain ⟨hca, hcb, hclient⟩ := Hub.client_enter (h := h.register (h.client a).device) hab ha hb
  simp only [Hub.client_register] at hca hcb
  have hleads := leads_entered hoa hob
  refine hc.insert hfa hfb hab ⟨ha, hb⟩ (Hub.size_enter _ a b) (h.size_setDevice _ _)
    (fun z hza hzb => ?_) ⟨?_, ?_⟩ ?_ (fun j => ?_) (fun j => ?_) fun j => ?_
  · exact congrArg stirred (hclient z hza hzb)
  · rw [hca]
    rfl
  · rw [hcb]
    rfl
  · rw [hca, hcb]
    exact .leads hleads
  · rw [hca, hcb]
    simp [Hub.entered, awayFrom, asks, Phase.isAway, Phase.ticket?]
  · rw [hca, hcb, hleads.enrolls_eq, Hub.device_enter, Hub.device_register hi]
    by_cases hj : j = (h.client a).device
    · subst hj
      simp [Hub.entered, Device.register]
    · have hj' : ¬(h.client b).device = j := fun e => hj (e ▸ hd.symm)
      simp [Hub.entered, hj, Ne.symm hj, hj']
  · rw [Hub.device_enter, Hub.device_register hi]
    split
    · subst j
      exact ⟨rfl, rfl⟩
    · exact ⟨rfl, rfl⟩

/-- A game of clients of two devices begins on the first one. -/
theorem startOpening (hc : Census h games) (hab : a ≠ b) (ha : a < h.clients.size)
    (hb : b < h.clients.size) (hfa : a ∉ members games) (hfb : b ∉ members games)
    (hd : (h.client a).device ≠ (h.client b).device) :
    Census (((h.register (h.client a).device).setPhase a (.opening b)).setPhase b .held)
      ((a, b) :: games) := by
  have hi := hc.home a ha
  obtain ⟨-, hia, hoa⟩ := hc.free a hfa
  obtain ⟨-, hib, hob⟩ := hc.free b hfb
  obtain ⟨hca, hcb, hclient⟩ := Hub.client_setPhase_pair (h := h.register (h.client a).device)
    hab ha hb (.opening b) .held
  simp only [Hub.client_register] at hca hcb
  refine hc.insert hfa hfb hab ⟨ha, hb⟩ ?_ (h.size_setDevice _ _)
    (fun z hza hzb => ?_) ⟨?_, ?_⟩ ?_ (fun j => ?_) (fun j => ?_) fun j => ?_
  · exact (Hub.size_changeClient _ b _).trans (Hub.size_changeClient _ a _)
  · exact congrArg stirred (hclient z hza hzb)
  · rw [hca]
  · rw [hcb]
  · rw [hca, hcb]
    exact .opens ⟨rfl, rfl, ⟨hia, hib⟩, ⟨hoa, hob⟩, hd⟩
  · rw [hca, hcb]
    simp [awayFrom, asks, Phase.isAway, Phase.ticket?]
  · rw [hca, hcb]
    simp only [enrolls, Phase.isClosing, Phase.isOpening, Hub.setPhase, Hub.device_changeClient,
      Hub.device_register hi]
    by_cases hj : j = (h.client a).device
    · subst hj
      simp [Device.register]
    · simp [hj, Ne.symm hj]
  · simp only [Hub.setPhase, Hub.device_changeClient, Hub.device_register hi]
    split
    · subst j
      exact ⟨rfl, rfl⟩
    · exact ⟨rfl, rfl⟩

/-- A game that was begun on the first device begins on the second one. -/
theorem opening (hc : Census h games) (hp : (h.client a).phase = .opening b) :
    Census ((h.register (h.client b).device).enter a b) games := by
  obtain ⟨hg, ho⟩ := hc.exists_opens hp
  have hab : a ≠ b := fst_ne_snd hc.once hg
  have ha := hc.known_of_game (.inl hg)
  have hb := hc.known_of_game (.inr hg)
  have hi := hc.home b hb
  obtain ⟨hca, hcb, hclient⟩ := Hub.client_enter (h := h.register (h.client b).device) hab ha hb
  simp only [Hub.client_register] at hca hcb
  have hleads := leads_entered ho.opponent.1 ho.opponent.2
  refine hc.change (.inl hg) (Hub.size_enter _ a b) (h.size_setDevice _ _) (fun z hza hzb => ?_)
    ⟨?_, ?_⟩ ?_ (fun j => ?_) (fun j => ?_) fun j => ?_
  · exact congrArg stirred (hclient z hza hzb)
  · rw [hca]
    rfl
  · rw [hcb]
    rfl
  · rw [hca, hcb]
    exact ⟨.leads hleads, .leads' hleads⟩
  · rw [hca, hcb, hleads.enrolls_eq, Hub.device_enter, Hub.device_register hi]
    simp only [enrolls, ho.opening, ho.held, Phase.isClosing, Phase.isOpening]
    by_cases hj : j = (h.client b).device
    · subst hj
      simp [Hub.entered, Device.register, ho.differ]
    · simp [Hub.entered, hj, Ne.symm hj]
  · rw [hca, hcb, Hub.device_enter, Hub.device_register hi]
    simp only [Hub.entered, awayFrom, ho.opening, ho.held, Phase.isAway, Bool.false_eq_true,
      and_false, if_false]
    split
    · subst j
      rfl
    · rfl
  · rw [hca, hcb, Hub.device_enter, Hub.device_register hi]
    simp only [Hub.entered, asks, ho.opening, ho.held, Phase.ticket?, Option.isSome_none,
      Bool.false_eq_true, and_false, if_false]
    split
    · subst j
      rfl
    · rfl

theorem unregister_isOk (hlive : (h.device i).asking + (h.device i).away + 1 ≤ (h.device i).live) :
    ∃ hub, h.unregister i = .ok hub := by
  unfold Hub.unregister Device.unregister
  rw [if_neg (by omega)]
  simp only
  rw [if_pos (by omega)]
  exact ⟨_, rfl⟩

/-- What is left of a hub when a game is taken off one of its devices. -/
theorem unregister_views {hub : Hub} (hun : h.unregister i = .ok hub) (hi : i < h.devices.size) :
    hub.clients.size = h.clients.size ∧ hub.devices.size = h.devices.size ∧
      (∀ z, hub.client z = (h.client z).rouse i) ∧ (h.device i).live ≠ 0 ∧
      ∀ j, (hub.device j).live = (h.device j).live - (if j = i then 1 else 0) ∧
        (hub.device j).away = (h.device j).away ∧ (hub.device j).asking = (h.device j).asking := by
  obtain ⟨d, ms, hd, rfl⟩ := Hub.unregister_eq_ok hun
  obtain ⟨hlive, hd⟩ := Device.unregister_eq_ok hd
  refine ⟨?_, ?_, fun z => ?_, hlive, fun j => ?_⟩
  · simp
  · simp
  · simp
  · rw [Hub.device_wake, Hub.device_measure, Hub.device_setDevice j d hi]
    split
    · subst j
      simp [hd]
    · simp

/-- A game that has nothing under way may end. -/
theorem stop_isOk (hc : Census h games) (hg : (a, b) ∈ games ∨ (b, a) ∈ games)
    (ha : (h.client a).phase = .idle) (hb : (h.client b).phase = .idle) :
    ∃ hub, h.unregister (h.client a).device = .ok hub := by
  have hroom := hc.room_of_leads hg (hc.leads_of_idle hg ha hb) (i := (h.client a).device)
    (.inl rfl)
  rw [asks_of_ticket?_eq_none (by rw [ha]; rfl), awayFrom_of_isAway_eq_false (by rw [ha]; rfl)]
    at hroom
  exact unregister_isOk hroom

/-- A game of clients of one device ends. -/
theorem stop (hc : Census h games) (hg : (a, b) ∈ games ∨ (b, a) ∈ games)
    (ha : (h.client a).phase = .idle) (hb : (h.client b).phase = .idle)
    (hd : (h.client a).device = (h.client b).device) {hub : Hub}
    (hun : h.unregister (h.client a).device = .ok hub) :
    Census (hub.exit a b) (games.filter fun g => g.1 != a && g.2 != a) := by
  have hab : a ≠ b := hg.elim (fst_ne_snd hc.once) fun hg => (fst_ne_snd hc.once hg).symm
  have hleads := hc.leads_of_idle hg ha hb
  obtain ⟨hsize, hdevices, hclients, hlive, hcounts⟩ := unregister_views hun (hc.home_of_game hg)
  obtain ⟨hca, hcb, hclient⟩ := Hub.client_exit (h := hub) hab (hsize ▸ hc.known_of_game hg)
    (hsize ▸ hc.known_of_game hg.symm)
  rw [hclients] at hca hcb
  refine hc.remove hg ((Hub.size_exit hub a b).trans hsize) hdevices (fun z hza hzb => ?_) ⟨?_, ?_⟩
    ⟨?_, ?_⟩ (fun j => ?_) (fun j => ?_) fun j => ?_
  · rw [hclient z hza hzb, hclients, stirred_rouse]
  · rw [hca]
    exact rouse_device _ _
  · rw [hcb]
    exact rouse_device _ _
  · rw [hca]
    exact ⟨rfl, rfl, rfl⟩
  · rw [hcb]
    exact ⟨rfl, rfl, rfl⟩
  · simp [awayFrom, asks, ha, hb, Phase.isAway, Phase.ticket?]
  · rw [hleads.enrolls_eq, Hub.device_exit, (hcounts j).1, ← hd]
    simp only [or_self]
    by_cases hj : j = (h.client a).device
    · subst hj
      simp only [if_true]
      omega
    · simp [hj, Ne.symm hj]
  · rw [Hub.device_exit]
    exact (hcounts j).2

/-- A game of clients of two devices ends on the first one. -/
theorem stopClosing (hc : Census h games) (hg : (a, b) ∈ games ∨ (b, a) ∈ games)
    (ha : (h.client a).phase = .idle) (hb : (h.client b).phase = .idle)
    (hd : (h.client a).device ≠ (h.client b).device) {hub : Hub}
    (hun : h.unregister (h.client a).device = .ok hub) :
    Census ((hub.setPhase a (.closing b)).setPhase b .held) games := by
  have hab : a ≠ b := hg.elim (fst_ne_snd hc.once) fun hg => (fst_ne_snd hc.once hg).symm
  have hleads := hc.leads_of_idle hg ha hb
  obtain ⟨hsize, hdevices, hclients, hlive, hcounts⟩ := unregister_views hun (hc.home_of_game hg)
  obtain ⟨hca, hcb, hclient⟩ := Hub.client_setPhase_pair (h := hub) hab
    (hsize ▸ hc.known_of_game hg) (hsize ▸ hc.known_of_game hg.symm) (.closing b) .held
  rw [hclients] at hca hcb
  have hcloses : Closes (((hub.setPhase a (.closing b)).setPhase b .held).client a)
      (((hub.setPhase a (.closing b)).setPhase b .held).client b) b := by
    refine ⟨?_, ?_, ?_⟩
    · rw [hca]
    · rw [hcb]
    · rw [hca, hcb]
      simpa using hd
  refine hc.change hg ?_ hdevices (fun z hza hzb => ?_) ⟨?_, ?_⟩
    ⟨.closes hcloses, .closes' hcloses⟩ (fun j => ?_) (fun j => ?_) fun j => ?_
  · exact ((Hub.size_changeClient _ b _).trans (Hub.size_changeClient _ a _)).trans hsize
  · rw [hclient z hza hzb, hclients, stirred_rouse]
  · rw [hca]
    exact rouse_device _ _
  · rw [hcb]
    exact rouse_device _ _
  · rw [hleads.enrolls_eq, hca, hcb]
    simp only [enrolls, Phase.isClosing, Phase.isOpening, Hub.setPhase, Hub.device_changeClient,
      (hcounts j).1, rouse_device]
    by_cases hj : j = (h.client a).device
    · subst hj
      simp [Ne.symm hd]
      omega
    · simp [hj, Ne.symm hj]
  · rw [hca, hcb]
    simp [Hub.setPhase, awayFrom, ha, hb, Phase.isAway, (hcounts j).2.1]
  · rw [hca, hcb]
    simp [Hub.setPhase, asks, ha, hb, Phase.ticket?, (hcounts j).2.2]

theorem closing_isOk (hc : Census h games) (hp : (h.client a).phase = .closing b) :
    ∃ hub, h.unregister (h.client b).device = .ok hub := by
  obtain ⟨hg, hcl⟩ := hc.exists_closes hp
  have hroom := hc.room hg (i := (h.client b).device)
    (by simp [enrolls, hcl.closing, hcl.held, Phase.isClosing, Phase.isOpening])
  simp only [asks, awayFrom, hcl.closing, hcl.held, Phase.ticket?, Phase.isAway, Option.isSome_none,
    Bool.false_eq_true, and_false, if_false] at hroom
  exact unregister_isOk hroom

/-- A game that was ended on one device ends on the other one. -/
theorem closing (hc : Census h games) (hp : (h.client a).phase = .closing b) {hub : Hub}
    (hun : h.unregister (h.client b).device = .ok hub) :
    Census (hub.exit a b) (games.filter fun g => g.1 != a && g.2 != a) := by
  obtain ⟨hg, hcl⟩ := hc.exists_closes hp
  have hab : a ≠ b := hg.elim (fst_ne_snd hc.once) fun hg => (fst_ne_snd hc.once hg).symm
  obtain ⟨hsize, hdevices, hclients, hlive, hcounts⟩ :=
    unregister_views hun (hc.home_of_game hg.symm)
  obtain ⟨hca, hcb, hclient⟩ := Hub.client_exit (h := hub) hab (hsize ▸ hc.known_of_game hg)
    (hsize ▸ hc.known_of_game hg.symm)
  rw [hclients] at hca hcb
  refine hc.remove hg ((Hub.size_exit hub a b).trans hsize) hdevices (fun z hza hzb => ?_) ⟨?_, ?_⟩
    ⟨?_, ?_⟩ (fun j => ?_) (fun j => ?_) fun j => ?_
  · rw [hclient z hza hzb, hclients, stirred_rouse]
  · rw [hca]
    exact rouse_device _ _
  · rw [hcb]
    exact rouse_device _ _
  · rw [hca]
    exact ⟨rfl, rfl, rfl⟩
  · rw [hcb]
    exact ⟨rfl, rfl, rfl⟩
  · simp [awayFrom, asks, hcl.closing, hcl.held, Phase.isAway, Phase.ticket?]
  · rw [Hub.device_exit, (hcounts j).1]
    simp only [enrolls, hcl.closing, hcl.held, Phase.isClosing, Phase.isOpening]
    by_cases hj : j = (h.client b).device
    · subst hj
      simp
      omega
    · simp [hj, Ne.symm hj]
  · rw [Hub.device_exit]
    exact (hcounts j).2

end Games

end Census

end Goban
