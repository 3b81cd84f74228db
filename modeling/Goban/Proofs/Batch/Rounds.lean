import Goban.Proofs.Batch.Bookkeeping
import Goban.Proofs.Batch.Frames

/-!
# Rounds

With one buffer a batch is full when every game that a device waits for has asked. The games that
ask and those that are away are never more than those that are live, so such a batch is all that is
under way on the device (`Course.Kept.fills`): one request of each game that is not away, no other
batch, and no answer left to collect (`Course.Reachable.batch_is_round`).
-/

namespace Goban

/-! ## Sums that meet their bound -/

/-- Sums over games agree only where all their parts do, if none of the parts is greater. -/
theorem Hub.eq_of_pairSum_le {h : Hub} {games : List (Nat × Nat)} (q q' : Client → Client → Nat)
    (hle : ∀ g ∈ games, q (h.client g.1) (h.client g.2) ≤ q' (h.client g.1) (h.client g.2))
    (hsum : h.pairSum games q' ≤ h.pairSum games q) :
    ∀ g ∈ games, q (h.client g.1) (h.client g.2) = q' (h.client g.1) (h.client g.2) := by
  induction games with
  | nil => exact fun g hg => absurd hg List.not_mem_nil
  | cons k rest ih =>
    rw [pairSum_cons, pairSum_cons] at hsum
    have hk := hle k List.mem_cons_self
    have hrest := pairSum_le fun g hg => hle g (List.mem_cons_of_mem k hg)
    intro g hg
    rcases List.mem_cons.mp hg with rfl | hg
    · omega
    · exact ih (fun g hg => hle g (List.mem_cons_of_mem k hg)) (by omega) g hg

namespace Device

/-- As many full batches as there are buffers have room for all games to wait for. -/
theorem le_mul_batchSize {d : Device} (hb : 0 < d.buffers) :
    d.live - d.away ≤ d.buffers * d.batchSize := by
  have hshare : (d.live - d.away + d.buffers - 1) / d.buffers ≤ d.batchSize := Nat.le_max_left _ 1
  rw [Nat.div_le_iff_le_mul_add_pred hb] at hshare
  omega

/-- A full batch has at least its share of the games to wait for. -/
theorem le_mul_of_isReady {d : Device} (hb : 0 < d.buffers) (hready : d.isReady = true) :
    d.live - d.away ≤ d.buffers * d.pending.length := by
  unfold isReady at hready
  rw [Bool.and_eq_true, decide_eq_true_eq] at hready
  exact (le_mul_batchSize hb).trans (Nat.mul_le_mul_left _ hready.2)

end Device

namespace Hub

variable {h : Hub} {i x y : Nat}

/-- What a client counts for on its device is a part of the sum over all of them. -/
theorem totalOn_idle_add {M : Type} [AddCommMonoid M] [IsCancelAdd M] {f : Phase → M}
    (hf : f .idle = 0) (hx : x < h.clients.size)
    (hd : (h.client x).device = i) :
    (h.setPhase x .idle).totalOn i f + f (h.client x).phase = h.totalOn i f := by
  have hsum := totalOn_setPhase_to_zero hx hf i
  rwa [if_pos hd] at hsum

/-- Whether a device waits for a game: it is registered there and does not wait elsewhere. -/
def Expects (h : Hub) (i : Nat) (g : Nat × Nat) : Prop :=
  enrolls i (h.client g.1) (h.client g.2) = 1 ∧
    (h.client g.1).awayFrom i + (h.client g.2).awayFrom i = 0

/-- Whether a request on a device is made by a client of a game. -/
def Makes (h : Hub) (i : Nat) (g : Nat × Nat) (r : Request) : Prop :=
  ∃ x, (g.1 = x ∨ g.2 = x) ∧ (h.client x).device = i ∧ (h.client x).phase.ticket? = some r.ticket

end Hub

namespace Course

variable {c c' : Course} {i t x : Nat} {batch : List Request}

/-- A batch of a device that a client has just taken is one round of its games. -/
structure IsRound (c : Course) (i x : Nat) (batch : List Request) : Prop where
  /-- The batch is what was pending. -/
  queue : ∃ d : Device, d.isReady = true ∧ d.pending = batch ∧ c.hub.device i = d.taken
  /-- There are as many requests as games that are live and not away. -/
  length : batch.length = (c.hub.device i).live - (c.hub.device i).away
  /-- Each of these games has made one of them. -/
  expected : ∀ g ∈ c.games, c.hub.Expects i g → ∃! r, r ∈ batch ∧ c.hub.Makes i g r
  /-- Each request was made by one of these games. -/
  made : ∀ r ∈ batch, ∃ g ∈ c.games, c.hub.Expects i g ∧ c.hub.Makes i g r
  /-- No other batch of the device runs. -/
  alone : ∀ y s other, (c.hub.client y).phase = .running s other → (c.hub.client y).device = i →
    y = x
  unflushed : ∀ f ∈ c.hub.flushes, f.1 ≠ i
  /-- No answer waits to be collected. -/
  collected : (c.hub.device i).results = []

/-- A batch that is as large as the number of games to wait for is all that is under way. -/
theorem Kept.fills (hl : c.Kept) (hp : (c.hub.client x).phase = .running t batch)
    (hd : (c.hub.client x).device = i) (hpending : (c.hub.device i).pending = [])
    (hfull : (c.hub.device i).live - (c.hub.device i).away ≤ batch.length) :
    batch.length = (c.hub.device i).live - (c.hub.device i).away ∧
      (c.hub.device i).asking + (c.hub.device i).away = (c.hub.device i).live ∧
      (c.hub.device i).results = [] ∧
      (∀ y, y ≠ x → (c.hub.client y).device = i → (c.hub.client y).phase.batch = []) ∧
      ∀ f ∈ c.hub.flushes, f.1 = i → f.2 = [] := by
  have hx : x < c.hub.clients.size := Tickets.known_of_ticket? (by rw [hp]; rfl)
  have hle := hl.asking_add_away_le i
  have hasking := hl.asking_eq i
  have hown := Hub.totalOn_idle_add (f := fun p => p.batch.length) rfl hx hd
  have hbatch : (c.hub.client x).phase.batch.length = batch.length := by rw [hp]; rfl
  unfold Hub.taken at hasking
  rw [hpending, ← hown, hbatch, List.length_nil] at hasking
  refine ⟨by omega, by omega, List.length_eq_zero_iff.mp (by omega), ?_, ?_⟩
  · intro y hy hdy
    have hclient : (c.hub.setPhase x .idle).client y = c.hub.client y :=
      Hub.client_changeClient_ne _ _ _ _ hy
    by_cases hknown : y < c.hub.clients.size
    · have hother := Hub.totalOn_idle_add (h := c.hub.setPhase x .idle) (x := y) (i := i)
        (f := fun p => p.batch.length) rfl (by simpa [Hub.setPhase] using hknown)
        (by rw [hclient]; exact hdy)
      rw [hclient] at hother
      exact List.length_eq_zero_iff.mp (by omega)
    · rw [Hub.client_of_le (Nat.not_lt.mp hknown)]
      rfl
  · intro f hf hfi
    have hflush := List.le_sum_of_mem
      (List.mem_map_of_mem (f := fun f => if f.1 = i then f.2.length else 0) hf)
    rw [if_pos hfi] at hflush
    exact List.length_eq_zero_iff.mp (by omega)

/-- Where all games ask that are not away, each game does what it can. -/
theorem Kept.asks_eq (hl : c.Kept)
    (hall : (c.hub.device i).asking + (c.hub.device i).away = (c.hub.device i).live) :
    ∀ g ∈ c.games, ((c.hub.client g.1).asks i + (c.hub.client g.2).asks i) +
      ((c.hub.client g.1).awayFrom i + (c.hub.client g.2).awayFrom i) =
        enrolls i (c.hub.client g.1) (c.hub.client g.2) := by
  refine Hub.eq_of_pairSum_le (fun x y => (x.asks i + y.asks i) + (x.awayFrom i + y.awayFrom i))
    (enrolls i) (fun g hg => (hl.census.bond g hg).asks_add_awayFrom_le i) ?_
  rw [Hub.pairSum_add, ← hl.census.asking, ← hl.census.away, ← hl.census.live, hall]

/-- A client that waits for a request on a device is one of those that ask there. -/
theorem asks_eq_one_iff {x : Client} : x.asks i = 1 ↔ x.device = i ∧ x.phase.ticket?.isSome := by
  unfold Client.asks
  split <;> simp_all

/-- On a device whose batch is all that is under way, its clients wait for the requests of the
batch. -/
theorem Kept.ticket_mem_batch (hl : c.Kept) (hp : (c.hub.client x).phase = .running t batch)
    (hpending : (c.hub.device i).pending = []) (hresults : (c.hub.device i).results = [])
    (halone : ∀ y, y ≠ x → (c.hub.client y).device = i → (c.hub.client y).phase.batch = [])
    (hunflushed : ∀ f ∈ c.hub.flushes, f.1 = i → f.2 = []) {y s : Nat}
    (hd : (c.hub.client y).device = i) (hs : (c.hub.client y).phase.ticket? = some s) :
    ∃ r ∈ batch, r.ticket = s := by
  have hmem := hl.tickets.mem_outstanding hs
  rw [hd] at hmem
  unfold Hub.outstanding at hmem
  rw [hpending, Device.published, hresults] at hmem
  simp only [tickets_nil, zero_add, List.map_nil, Multiset.coe_nil, add_zero,
    Multiset.mem_add] at hmem
  rcases hmem with hmem | hmem
  · obtain ⟨z, -, hdz, hz⟩ := Hub.mem_totalOn.mp hmem
    by_cases hzx : z = x
    · rw [hzx, hp] at hz
      exact List.mem_map.mp hz
    · rw [Phase.taken_eq_zero (halone z hzx hdz)] at hz
      exact absurd hz (Multiset.notMem_zero s)
  · obtain ⟨f, hf, hmem⟩ := Hub.mem_sum_map.mp hmem
    split at hmem
    · rw [hunflushed f hf ‹_›] at hmem
      exact absurd hmem (Multiset.notMem_zero s)
    · exact absurd hmem (Multiset.notMem_zero s)

theorem Kept.nodup_batch (hl : c.Kept) (hp : (c.hub.client x).phase = .running t batch) :
    (batch.map (·.ticket)).Nodup := by
  have hx : x < c.hub.clients.size := Tickets.known_of_ticket? (by rw [hp]; rfl)
  have hown := Hub.totalOn_idle_add (i := (c.hub.client x).device) (f := Phase.taken) rfl hx rfl
  have hnodup := hl.tickets.nodup (c.hub.client x).device
  unfold Hub.outstanding at hnodup
  rw [← hown, hp] at hnodup
  simp only [Multiset.nodup_add] at hnodup
  exact hnodup.1.1.2.1.2.1

/-- Each game that a device waits for has exactly one request in a batch that is all that is under
way. -/
theorem Kept.exists_unique_request (hl : c.Kept) (hp : (c.hub.client x).phase = .running t batch)
    (hall : (c.hub.device i).asking + (c.hub.device i).away = (c.hub.device i).live)
    (hbatch : ∀ y s, (c.hub.client y).device = i → (c.hub.client y).phase.ticket? = some s →
      ∃ r ∈ batch, r.ticket = s) {g : Nat × Nat} (hg : g ∈ c.games) (hexpects : c.hub.Expects i g) :
    ∃! r, r ∈ batch ∧ c.hub.Makes i g r := by
  have hasks := hl.asks_eq hall g hg
  rw [hexpects.1, hexpects.2] at hasks
  -- Just one client of the game waits.
  have hone : ∃ y, (g.1 = y ∨ g.2 = y) ∧ (c.hub.client y).asks i = 1 := by
    have : (c.hub.client g.1).asks i = 1 ∨ (c.hub.client g.2).asks i = 1 := by omega
    rcases this with h | h
    · exact ⟨_, .inl rfl, h⟩
    · exact ⟨_, .inr rfl, h⟩
  have honly : ∀ y z, (g.1 = y ∨ g.2 = y) → (g.1 = z ∨ g.2 = z) →
      (c.hub.client y).asks i = 1 → (c.hub.client z).asks i = 1 → y = z := by
    rintro y z (rfl | rfl) (rfl | rfl) hy hz <;> first | rfl | omega
  obtain ⟨y, hy, hyasks⟩ := hone
  obtain ⟨hyd, hys⟩ := asks_eq_one_iff.mp hyasks
  obtain ⟨s, hs⟩ := Option.isSome_iff_exists.mp hys
  obtain ⟨r, hr, rfl⟩ := hbatch y s hyd hs
  refine ⟨r, ⟨hr, y, hy, hyd, hs⟩, ?_⟩
  rintro r' ⟨hr', z, hz, hzd, hzs⟩
  obtain rfl := honly y z hy hz hyasks (asks_eq_one_iff.mpr ⟨hzd, by rw [hzs]; rfl⟩)
  exact List.inj_on_of_nodup_map (hl.nodup_batch hp) hr' hr
    (Option.some.inj (hzs.symm.trans hs))

/-- Each request of a batch was made by a game that the device waits for. -/
theorem Kept.exists_game (hl : c.Kept) (hp : (c.hub.client x).phase = .running t batch)
    (hd : (c.hub.client x).device = i) {r : Request} (hr : r ∈ batch) :
    ∃ g ∈ c.games, c.hub.Expects i g ∧ c.hub.Makes i g r := by
  have hholds : c.hub.Holds i r := .inr (.inl ⟨x, hd, by rw [hp]; exact hr⟩)
  obtain ⟨y, hyd, hys⟩ := hl.tickets.exists_owner hholds.mem_outstanding
  obtain ⟨z, hg, -⟩ := hl.census.exists_leads (Phase.isUnderway_of_ticket? hys)
  have hyasks : (c.hub.client y).asks i = 1 := asks_eq_one_iff.mpr ⟨hyd, by rw [hys]; rfl⟩
  have hle : ∀ x y : Client, enrolls i x y ≤ 1 := by
    intro x y
    unfold enrolls
    split <;> omega
  obtain ⟨g, hg, hy⟩ : ∃ g ∈ c.games, g.1 = y ∨ g.2 = y := by
    rcases hg with hg | hg
    · exact ⟨_, hg, .inl rfl⟩
    · exact ⟨_, hg, .inr rfl⟩
  have hbond := (hl.census.bond g hg).asks_add_awayFrom_le i
  have hmost := hle (c.hub.client g.1) (c.hub.client g.2)
  have hsome : 1 ≤ (c.hub.client g.1).asks i + (c.hub.client g.2).asks i := by
    rcases hy with rfl | rfl <;> omega
  exact ⟨g, hg, ⟨by omega, by omega⟩, y, hy, hyd, hys⟩

/-- On a device with one buffer a batch that a client takes is exactly one round: one request of
every game that is registered there and not away, with no other batch under way and no answer left
to collect. -/
theorem Reachable.batch_is_round (hc : c.Reachable) (ok : c.after (.event (.proceed x)) = .ok c')
    (hp : (c'.hub.client x).phase = .running t batch)
    (hone : (c'.hub.device (c'.hub.client x).device).buffers = 1) :
    c'.IsRound (c'.hub.client x).device x batch := by
  have hc' : c'.Reachable := hc.act (a := .event (.proceed x)) trivial ok
  have hl := hc'.kept
  obtain ⟨d, hready, hqueue, hdevice⟩ := hc.kept.taken_of_proceed ok hp
  have hpending : (c'.hub.device (c'.hub.client x).device).pending = [] := by
    rw [hdevice]
    rfl
  have hfull : (c'.hub.device (c'.hub.client x).device).live -
      (c'.hub.device (c'.hub.client x).device).away ≤ batch.length := by
    rw [hdevice] at hone ⊢
    have hone : d.buffers = 1 := hone
    have hle := Device.le_mul_of_isReady (by omega) hready
    rw [hone, Nat.one_mul, hqueue] at hle
    exact hle
  obtain ⟨hlength, hall, hresults, halone, hunflushed⟩ := hl.fills hp rfl hpending hfull
  refine ⟨⟨d, hready, hqueue, hdevice⟩, hlength, fun g hg hexpects => ?_,
    fun r hr => hl.exists_game hp rfl hr, fun y s other hy hyd => ?_, fun f hf hfi => ?_, hresults⟩
  · exact hl.exists_unique_request hp hall (fun y s hd hs =>
      hl.ticket_mem_batch hp hpending hresults halone hunflushed hd hs) hg hexpects
  · by_contra hne
    have hnil := halone y hne hyd
    rw [hy] at hnil
    exact hc'.filled.running y s other hy hnil
  · exact hc'.filled.flushes f hf (hunflushed f hf hfi)

/-- The second of two games fills the batch of the device, and takes it. -/
theorem batch_is_round_of_two_games : ∃ c c' : Course, ∃ batch, c.Reachable ∧
    c.after (.event (.proceed 2)) = .ok c' ∧ (c'.hub.client 2).phase = .running 1 batch ∧
      batch.length = 2 ∧ c'.IsRound 0 2 batch := by
  have h₀ : (start [.empty "cpu" 1]).Reachable :=
    ⟨_, [], fun d hd => ⟨"cpu", 1, by rw [List.mem_singleton.mp hd]; rfl⟩, .rest⟩
  have h₁ := h₀.act (a := .load 0 (fun _ _ => .ok .uniform) "uniform") trivial rfl
  have h₂ := (h₁.act (a := .addClient 0 0) rfl rfl).act (a := .addClient 0 0) rfl rfl
  have h₃ := (h₂.act (a := .addClient 0 0) rfl rfl).act (a := .addClient 0 0) rfl rfl
  have h₄ := h₃.act (a := .event (.startGame 0 1))
    ⟨by decide, by decide, by decide, by rintro g ⟨⟩, by rintro g ⟨⟩⟩ rfl
  have h₅ := h₄.act (a := .event (.startGame 2 3)) ⟨by decide, by decide, by decide,
    by rintro g (_ | ⟨_, ⟨⟩⟩); decide, by rintro g (_ | ⟨_, ⟨⟩⟩); decide⟩ rfl
  have h₆ := (h₅.act (a := .event (.request 0 [.initial .zero]))
    ⟨1, .inl (List.mem_cons_of_mem _ List.mem_cons_self), rfl, rfl⟩ rfl).act
      (a := .event (.proceed 0)) trivial rfl
  have h₇ := h₆.act (a := .event (.request 2 [.initial .zero]))
    ⟨3, .inl List.mem_cons_self, rfl, rfl⟩ rfl
  have hround := h₇.batch_is_round (x := 2) (t := 1) rfl rfl rfl
  exact ⟨_, _, _, h₇, rfl, rfl, rfl, hround⟩

end Course

end Goban
