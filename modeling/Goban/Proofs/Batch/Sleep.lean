import Goban.Proofs.Batch.Bookkeeping

/-!
# Sleeping clients

A client sleeps only as long as there is nothing for it to do (`Rested`): whatever lays out an
answer or fills a batch wakes the clients of the device, or takes the batch itself. So somebody is
always up: if the threads of all live games slept, each device would have a request from every game
that is not away, and that is a full batch.
-/

namespace Goban

/-- Nobody sleeps although an answer or a full batch is there. -/
structure Rested (h : Hub) : Prop where
  unanswered : ∀ x t, (h.client x).phase = .asleep t →
    ∀ answer, (t, answer) ∉ (h.device (h.client x).device).results
  unready : ∀ x t, (h.client x).phase = .asleep t → (h.device (h.client x).device).isReady = false

namespace Device

variable {d d' : Device}

/-- More games to wait for make no batch full. -/
theorem isReady_of_le (pending : d'.pending = d.pending) (buffers : d'.buffers = d.buffers)
    (games : d.live - d.away ≤ d'.live - d'.away) (h : d.isReady = false) : d'.isReady = false := by
  have hsize : d.batchSize ≤ d'.batchSize := by
    unfold batchSize
    rw [buffers]
    have := Nat.div_le_div_right (c := d.buffers)
      (show d.live - d.away + d.buffers - 1 ≤ d'.live - d'.away + d.buffers - 1 by omega)
    omega
  unfold isReady at h ⊢
  rw [pending]
  rcases Bool.and_eq_false_iff.mp h with h | h
  · simp [h]
  · have hlt : ¬d.batchSize ≤ d.pending.length := of_decide_eq_false h
    have : ¬d'.batchSize ≤ d.pending.length := by omega
    simp [this]

/-- As many requests as there are games to wait for make a full batch. -/
theorem isReady_of_length (hlen : d.pending.length = d.live - d.away)
    (hpos : 0 < d.pending.length) :
    d.isReady = true := by
  have hsize : d.batchSize ≤ d.pending.length := by
    unfold batchSize
    rw [← hlen]
    rcases Nat.eq_zero_or_pos d.buffers with hb | hb
    · rw [hb, Nat.div_zero]
      omega
    · have : (d.pending.length + d.buffers - 1) / d.buffers ≤ d.pending.length := by
        rw [Nat.div_le_iff_le_mul_add_pred hb]
        have := Nat.le_mul_of_pos_left d.pending.length hb
        omega
      omega
  have hne : d.pending.isEmpty = false := by
    rw [List.isEmpty_eq_false_iff]
    exact List.ne_nil_of_length_pos hpos
  simp [isReady, hne, hsize]

end Device

namespace Rested

variable {h h' : Hub} {i x t : Nat} {d : Device}

/-- Nothing new is there for those who still sleep. -/
theorem keep (hr : Rested h) (still : ∀ x t, (h'.client x).phase = .asleep t →
    (h.client x).phase = .asleep t ∧
      (h'.device (h'.client x).device).results ⊆ (h.device (h.client x).device).results ∧
      ((h.device (h.client x).device).isReady = false →
        (h'.device (h'.client x).device).isReady = false)) : Rested h' where
  unanswered x t hp answer hmem := by
    obtain ⟨hold, hresults, -⟩ := still x t hp
    exact hr.unanswered x t hold answer (hresults hmem)
  unready x t hp := by
    obtain ⟨hold, -, hready⟩ := still x t hp
    exact hready (hr.unready x t hold)

theorem measure (hr : Rested h) (ms : List Measurement) : Rested (h.measure ms) :=
  ⟨hr.unanswered, hr.unready⟩

/-- A device may change in a way that gives nobody anything to do. -/
theorem setDevice (hr : Rested h) (results : d.results ⊆ (h.device i).results)
    (ready : (h.device i).isReady = false → d.isReady = false) : Rested (h.setDevice i d) := by
  refine hr.keep fun y s hp => ⟨hp, ?_⟩
  rw [Hub.client_setDevice]
  rcases Hub.device_setDevice_cases h i (h.client y).device d with hd | ⟨hy, -, hd⟩
  · rw [hd]
    exact ⟨List.Subset.refl _, id⟩
  · rw [hd, hy]
    exact ⟨results, ready⟩

/-- A device may change in any way if its clients are woken. -/
theorem setDevice_wake (hr : Rested h) (i : Nat) (d : Device) :
    Rested ((h.setDevice i d).wake i) := by
  refine hr.keep fun y s hp => ?_
  rw [Hub.client_wake, Hub.client_setDevice] at hp
  obtain ⟨hp, hy⟩ := Client.asleep_of_rouse hp
  rw [Hub.client_wake, Client.rouse_device, Hub.device_wake, Hub.client_setDevice,
    Hub.device_setDevice_ne _ _ _ _ hy]
  exact ⟨hp, List.Subset.refl _, id⟩

/-- A client may change in any way but fall asleep. -/
theorem changeClient (hr : Rested h) {f : Client → Client} (x : Nat)
    (hf : ∀ t, (f (h.client x)).phase ≠ .asleep t) : Rested (h.changeClient x f) := by
  refine hr.keep fun y s hp => ?_
  rcases Hub.client_changeClient_cases h x y f with hc | ⟨rfl, -, hc⟩
  · rw [hc] at hp ⊢
    exact ⟨hp, List.Subset.refl _, id⟩
  · rw [hc] at hp
    exact absurd hp (hf s)

theorem setPhase (hr : Rested h) (x : Nat) {p : Phase} (hp : ∀ t, p ≠ .asleep t) :
    Rested (h.setPhase x p) := hr.changeClient x hp

/-- A client that looks takes a batch that is full. Its own request may have made it full, if its
answer cannot be there yet. -/
theorem look (hi : (h.client x).device < h.devices.size)
    (unanswered : ∀ y s, (h.client y).phase = .asleep s →
      ∀ answer, (s, answer) ∉ (h.device (h.client y).device).results)
    (unready : ∀ y s, (h.client y).phase = .asleep s →
      (h.device (h.client y).device).isReady = false ∨ (h.client y).device = (h.client x).device ∧
        (h.device (h.client x).device).collect? t = none) : Rested (h.look x t) := by
  rcases h.look_cases x t with ⟨answer, d, hcollect, hlook⟩ | ⟨-, -, hlook⟩ | ⟨hnone, hready, hlook⟩
  · obtain ⟨-, hd⟩ := Device.collect?_eq_some hcollect
    have hother : Rested h := ⟨unanswered, fun y s hp => by
      rcases unready y s hp with hready | ⟨-, hno⟩
      · exact hready
      · rw [hcollect] at hno
        cases hno⟩
    rw [hlook]
    refine (hother.setDevice ?_ fun hready => ?_).setPhase x ?_
    · rw [hd]
      exact fun _ hmem => List.mem_of_mem_filter hmem
    · rw [hd]
      exact hready
    · unfold Hub.afterCollecting
      split <;> simp
  · rw [hlook]
    refine Rested.setPhase ⟨fun y s hp => ?_, fun y s hp => ?_⟩ x (by simp)
    · rw [Hub.client_setDevice] at hp ⊢
      rw [Hub.device_setDevice _ _ hi]
      split
      · rename_i hy
        rw [Device.taken, ← hy]
        exact unanswered y s hp
      · exact unanswered y s hp
    · rw [Hub.client_setDevice] at hp ⊢
      rw [Hub.device_setDevice _ _ hi]
      split
      · rfl
      · rename_i hy
        exact (unready y s hp).resolve_right fun hno => hy hno.1
  · rw [hlook]
    refine ⟨fun y s hp => ?_, fun y s hp => ?_⟩
    · rcases Hub.client_changeClient_cases h x y ({ · with phase := .asleep t })
        with hc | ⟨rfl, -, hc⟩
      · rw [Hub.setPhase, hc] at hp ⊢
        exact unanswered y s hp
      · rw [Hub.setPhase, hc] at hp ⊢
        cases hp
        exact Device.collect?_eq_none hnone
    · rcases Hub.client_changeClient_cases h x y ({ · with phase := .asleep t })
        with hc | ⟨rfl, -, hc⟩
      · rw [Hub.setPhase, hc] at hp ⊢
        rcases unready y s hp with hold | ⟨hy, -⟩
        · exact hold
        · rw [hy]
          exact hready
      · rw [Hub.setPhase, hc]
        exact hready

/-- One more look at a device where nobody sleeps in vain. -/
theorem look_again (hr : Rested h) (hi : (h.client x).device < h.devices.size) :
    Rested (h.look x t) :=
  look hi hr.unanswered fun y s hp => .inl (hr.unready y s hp)

theorem register (hr : Rested h) (i : Nat) : Rested (h.register i) := by
  obtain ⟨ms, he⟩ := h.register_eq i
  have hset : Rested (h.setDevice i (h.device i).register) :=
    hr.setDevice (List.Subset.refl _) fun hready =>
      Device.isReady_of_le (d := h.device i) rfl rfl (by simp only [Device.register]; omega) hready
  exact he ▸ hset.measure ms

theorem unregister (hr : Rested h) (hun : h.unregister i = .ok h') : Rested h' := by
  obtain ⟨d, ms, -, rfl⟩ := Hub.unregister_eq_ok hun
  exact (hr.measure ms).setDevice_wake i d

theorem enter (hr : Rested h) (a b : Nat) : Rested (h.enter a b) := by
  obtain ⟨f, g, he, hf⟩ := h.enter_eq a b
  rw [he]
  refine (hr.changeClient a fun s => ?_).changeClient b fun s => ?_
  · rw [(hf _).1.2.2]
    simp
  · rw [(hf _).2.2.2]
    simp

theorem exit (hr : Rested h) (a b : Nat) : Rested (h.exit a b) := by
  obtain ⟨f, g, he, hf⟩ := h.exit_eq a b
  rw [he]
  refine (hr.changeClient a fun s => ?_).changeClient b fun s => ?_
  · rw [(hf _).1.2.2]
    simp
  · rw [(hf _).2.2.2]
    simp

theorem runBatch (hr : Rested h) {batch : List Request} (hok : h.runBatch i batch = .ok h') :
    Rested h' := by
  obtain ⟨run, -, rfl⟩ := Hub.runBatch_eq_ok hok
  exact (hr.measure _).setDevice_wake i _

theorem flush (hr : Rested h) (i : Nat) : Rested (h.flush i) := by
  unfold Hub.flush
  simp only
  split
  · exact hr
  · have hset : Rested (h.setDevice i (h.device i).taken) :=
      hr.setDevice (List.Subset.refl _) fun _ => rfl
    exact ⟨hset.unanswered, hset.unready⟩

theorem stir (hr : Rested h) (x : Nat) : Rested (h.stir x) :=
  hr.changeClient x fun t => Client.rouse_phase_ne_asleep rfl t

theorem load (hr : Rested h) (i : Nat) (loader : Loader) (path : String) :
    Rested (h.load i loader path) := by
  rcases h.load_eq i loader path with he | ⟨models, -, he⟩
  · rw [he]
    exact hr
  · rw [he]
    exact hr.setDevice (List.Subset.refl _) id

theorem addClient (hr : Rested h) {key : ModelKey} (hok : h.addClient i key = .ok (x, h')) :
    Rested h' := by
  obtain ⟨-, name, rfl⟩ := Hub.addClient_eq_ok hok
  refine hr.keep fun y s hp => ?_
  rw [Hub.client_push] at hp ⊢
  split at hp
  · cases hp
  · rename_i hy
    rw [if_neg hy]
    exact ⟨hp, List.Subset.refl _, id⟩

end Rested

namespace Ledger

variable {h : Hub} {games : List (Nat × Nat)} {asked : Nat → List Position}
  {returned : Nat → List Nat} {t x : Nat}

/-- A client that makes a request either sees whether it makes a full batch or takes it. -/
theorem rested_ask (hl : Ledger h games asked returned) (hr : Rested h) {positions : List Position}
    {d : Device} (hp : (h.client x).phase = .submitting positions)
    (hsubmit : (h.device (h.client x).device).submit (h.client x).key positions = .ok (t, d)) :
    Rested ((h.setDevice (h.client x).device d).look x t) := by
  obtain ⟨y, hg, -⟩ := hl.census.exists_leads (x := x) (by rw [hp]; rfl)
  have hi := hl.census.home_of_game hg
  obtain ⟨-, ht, hd⟩ := Device.submit_eq_ok hsubmit
  have hdevice : ∀ j, (h.setDevice (h.client x).device d).device j =
      if j = (h.client x).device then d else h.device j := fun j => Hub.device_setDevice j d hi
  -- No answer can be there for the new ticket.
  have hfresh : d.collect? t = none := by
    cases hc : d.collect? t with
    | none => rfl
    | some found =>
      obtain ⟨answer, d'⟩ := found
      have hmem := (Device.collect?_eq_some hc).1
      rw [hd] at hmem
      have := hl.tickets.lt_nextTicket (Hub.mem_outstanding_of_published hmem)
      omega
  refine Rested.look (by simpa using hi) (fun y s hy => ?_) fun y s hy => ?_
  · rw [Hub.client_setDevice] at hy ⊢
    rw [hdevice]
    split
    · rename_i hyx
      rw [hd, ← hyx]
      exact hr.unanswered y s hy
    · exact hr.unanswered y s hy
  · rw [Hub.client_setDevice] at hy
    rw [Hub.client_setDevice, Hub.client_setDevice, hdevice, hdevice, if_pos rfl]
    split
    · exact .inr ⟨‹_›, hfresh⟩
    · exact .inl (hr.unready y s hy)

theorem rested_proceed (hl : Ledger h games asked returned) (hr : Rested h) {h' : Hub}
    (hok : h.proceed x = .ok h') : Rested h' := by
  cases Hub.proceed_eq_ok hok with
  | leave _ _ => exact (hr.setDevice_wake _ _).setPhase x (by simp)
  | submit hp hsubmit => exact hl.rested_ask hr hp hsubmit
  | look hp => exact hr.look_again (hl.census.home x (Tickets.known_of_ticket? (by rw [hp]; rfl)))
  | @run t batch hub hp hrun =>
    obtain ⟨hlaid, hsize, hdevice⟩ := hl.publish hp hrun
    have hx : x < hub.clients.size := hsize ▸ Tickets.known_of_ticket? (by rw [hp]; rfl)
    have hi := hlaid.census.home x (by simpa [Hub.setPhase] using hx)
    rw [Hub.client_setPhase_self hx] at hi
    exact (hr.runBatch hrun).look_again hi
  | rejoin hp hrejoin =>
    obtain ⟨-, rfl⟩ := Device.rejoin_eq_ok hrejoin
    refine (hr.setDevice ?_ fun hready => ?_).setPhase x (by simp)
    · exact List.Subset.refl _
    · refine Device.isReady_of_le ?_ ?_ ?_ hready
      · rfl
      · rfl
      · simp only
        omega
  | opening _ => exact (hr.register _).enter x _
  | closing _ hun => exact (hr.unregister hun).exit x _
  | rest _ => exact hr

end Ledger

namespace Course

variable {c c' : Course}

theorem Kept.rested_after (hl : c.Kept) (hr : Rested c.hub) {a : Act} (ok : c.after a = .ok c') :
    Rested c'.hub := by
  cases a with
  | load i loader path =>
    cases ok
    exact hr.load i loader path
  | addClient i key =>
    obtain ⟨x, hub, hadd, rfl⟩ := after_addClient_eq_ok ok
    exact hr.addClient hadd
  | event e =>
    obtain ⟨hub, hact, rfl⟩ := after_event_eq_ok ok
    simp only [follow]
    cases e with
    | startGame a b =>
      have hreg := hr.register (c.hub.client a).device
      rcases Hub.startGame_eq_ok hact with ⟨-, rfl⟩ | ⟨-, rfl⟩
      · exact hreg.enter a b
      · exact (hreg.setPhase a (by simp)).setPhase b (by simp)
    | endGame a b =>
      obtain ⟨hub', hun, ⟨-, rfl⟩ | ⟨-, rfl⟩⟩ := Hub.endGame_eq_ok hact
      · exact (hr.unregister hun).exit a b
      · exact ((hr.unregister hun).setPhase a (by simp)).setPhase b (by simp)
    | request x positions =>
      cases Hub.act_request_eq_ok hact
      refine hr.setPhase x ?_
      unfold Hub.afterAsking
      split
      · simp
      · split <;> simp
    | proceed x => exact hl.rested_proceed hr hact
    | collect x =>
      rcases Hub.act_collect_eq_ok hact with rfl | ⟨answer, -, rfl⟩
      · exact hr
      · exact hr.setPhase x (by simp)
    | flush i =>
      cases hact
      exact hr.flush i
    | runFlush k =>
      simp only [Hub.act, Hub.runFlush] at hact
      split at hact
      · cases hact
        exact hr
      · have hdrop : Rested { c.hub with flushes := c.hub.flushes.eraseIdx k } :=
          ⟨hr.unanswered, hr.unready⟩
        exact hdrop.runBatch hact
    | stir x =>
      cases hact
      exact hr.stir x

theorem Reachable.rested (hc : c.Reachable) : Rested c.hub := by
  have hboth : c.Kept ∧ Rested c.hub := by
    refine Reachable.induction (P := fun c => c.Kept ∧ Rested c.hub) (fun devices hnew => ?_)
      (fun _ _ _ hl allowed ok => ⟨hl.1.after allowed ok, hl.1.rested_after hl.2 ok⟩) hc
    refine ⟨kept_start hnew, ?_⟩
    constructor <;> intro x t hp <;> cases hp
  exact hboth.2

end Course

/-! ## Somebody is up -/

/-- If a client of a game sleeps, it has the turn. -/
theorem Bond.leads_of_asleep {x y : Client} {a b : Nat} (h : Bond x y a b)
    (hp : ∃ t, x.phase = .asleep t ∨ y.phase = .asleep t) :
    Leads x y ∧ (∃ t, x.phase = .asleep t) ∨ Leads y x ∧ ∃ t, y.phase = .asleep t := by
  obtain ⟨t, hp⟩ := hp
  cases h with
  | leads h => exact .inl ⟨h, t, hp.resolve_right (by simp [h.idle])⟩
  | leads' h => exact .inr ⟨h, t, hp.resolve_left (by simp [h.idle])⟩
  | opens h => simp [h.opening, h.held] at hp
  | closes h => simp [h.closing, h.held] at hp
  | closes' h => simp [h.closing, h.held] at hp

/-- A game whose thread waits for an answer asks one of its devices, and is away from the other. -/
theorem Leads.enrolls_le {x y : Client} (turn : Leads x y) (hp : ∃ t, x.phase = .asleep t)
    (i : Nat) :
    enrolls i x y ≤ x.asks i + y.asks i + (x.awayFrom i + y.awayFrom i) := by
  obtain ⟨t, hp⟩ := hp
  rw [turn.enrolls_eq]
  by_cases hx : x.device = i
  · have hasks : x.asks i = 1 := by simp [Client.asks, hx, hp, Phase.ticket?]
    rw [if_pos (.inl hx)]
    omega
  · by_cases hy : y.device = i
    · have hopp := (turn.opponentDevice_eq_iff i).mpr ⟨hy, hx⟩
      have haway : x.awayFrom i = 1 := by simp [Client.awayFrom, hopp, hp, Phase.isAway]
      rw [if_pos (.inr hy)]
      omega
    · rw [if_neg (by simp [hx, hy])]
      exact Nat.zero_le _

namespace Course

section Deadlock

variable {c : Course} (hl : c.Kept) (hall : ∀ g ∈ c.games, ∃ t,
  (c.hub.client g.1).phase = .asleep t ∨ (c.hub.client g.2).phase = .asleep t)

include hl hall

/-- If the threads of all games sleep, nobody else has anything under way. -/
theorem Kept.idle_or_asleep (x : Nat) :
    (c.hub.client x).phase = .idle ∨ ∃ t, (c.hub.client x).phase = .asleep t := by
  by_cases hx : x ∈ members c.games
  · obtain ⟨⟨a, b⟩, hg, hab⟩ := mem_members.mp hx
    rcases (hl.census.bond _ hg).leads_of_asleep (hall _ hg) with ⟨turn, hp⟩ | ⟨turn, hp⟩
    · rcases hab with rfl | rfl
      · exact .inr hp
      · exact .inl turn.idle
    · rcases hab with rfl | rfl
      · exact .inl turn.idle
      · exact .inr hp
  · exact .inl (hl.census.free x hx).1

theorem Kept.live_le (i : Nat) :
    (c.hub.device i).live ≤ (c.hub.device i).asking + (c.hub.device i).away := by
  rw [hl.census.asking, hl.census.away, hl.census.live, ← Hub.pairSum_add]
  refine Hub.pairSum_le fun g hg => ?_
  rcases (hl.census.bond g hg).leads_of_asleep (hall g hg) with ⟨turn, hp⟩ | ⟨turn, hp⟩
  · exact turn.enrolls_le hp i
  · have hle := turn.enrolls_le hp i
    rw [enrolls_comm] at hle
    omega

theorem Kept.taken_eq_zero (hflushes : c.hub.flushes = []) (i : Nat) : c.hub.taken i = 0 := by
  have hzero : c.hub.totalOn i Phase.taken = 0 := by
    refine Multiset.eq_zero_of_forall_notMem fun t ht => ?_
    obtain ⟨x, -, -, hmem⟩ := Hub.mem_totalOn.mp ht
    rcases hl.idle_or_asleep hall x with hp | ⟨s, hp⟩ <;> rw [hp] at hmem <;> cases hmem
  rw [Hub.taken, ← Hub.card_totalOn_taken, hzero, hflushes]
  rfl

theorem Kept.results_eq_nil (hr : Rested c.hub) (i : Nat) : (c.hub.device i).results = [] := by
  refine List.eq_nil_iff_forall_not_mem.mpr fun (t, answer) hmem => ?_
  obtain ⟨x, rfl, ht⟩ := hl.tickets.exists_owner (Hub.mem_outstanding_of_published hmem)
  rcases hl.idle_or_asleep hall x with hp | ⟨s, hp⟩
  · rw [hp] at ht
    cases ht
  · rw [hp] at ht
    cases ht
    exact hr.unanswered x t hp answer hmem

/-- The threads of all games do not sleep at once, unless the answers of a flushed batch are to
come. -/
theorem Kept.games_eq_nil (hr : Rested c.hub) (hflushes : c.hub.flushes = []) : c.games = [] := by
  by_contra hgames
  obtain ⟨g, hg⟩ := List.exists_mem_of_ne_nil _ hgames
  obtain ⟨x, t, hp⟩ : ∃ x t, (c.hub.client x).phase = .asleep t := by
    obtain ⟨t, hp | hp⟩ := hall g hg
    · exact ⟨_, t, hp⟩
    · exact ⟨_, t, hp⟩
  obtain ⟨y, hgy, turn⟩ := hl.census.exists_leads (x := x) (by rw [hp]; rfl)
  have hasks := (hl.census.counts_ge hgy (c.hub.client x).device).1
  have hone : (c.hub.client x).asks (c.hub.client x).device = 1 := by
    simp [Client.asks, hp, Phase.ticket?]
  have hlive := hl.live_le hall (c.hub.client x).device
  have hle := hl.asking_add_away_le (c.hub.client x).device
  have hasking := hl.asking_eq (c.hub.client x).device
  rw [hl.taken_eq_zero hall hflushes, hl.results_eq_nil hall hr, List.length_nil] at hasking
  have hready := Device.isReady_of_length (d := c.hub.device (c.hub.client x).device) (by omega)
    (by omega)
  rw [hr.unready x t hp] at hready
  cases hready

end Deadlock

/-- In every course those who sleep have nothing to do, and unless a flushed batch is being run,
somebody who plays a live game does not sleep. -/
theorem Reachable.no_lost_wakeup {c : Course} (hc : c.Reachable) :
    (∀ x t, (c.hub.client x).phase = .asleep t →
      (∀ answer, (t, answer) ∉ (c.hub.device (c.hub.client x).device).results) ∧
        (c.hub.device (c.hub.client x).device).isReady = false) ∧
    (c.games ≠ [] → c.hub.flushes = [] →
      ∃ g ∈ c.games, ∀ t, (c.hub.client g.1).phase ≠ .asleep t ∧
        (c.hub.client g.2).phase ≠ .asleep t) := by
  have hr := hc.rested
  refine ⟨fun x t hp => ⟨hr.unanswered x t hp, hr.unready x t hp⟩, fun hgames hflushes => ?_⟩
  by_contra hno
  refine hgames (hc.kept.games_eq_nil (fun g hg => ?_) hr hflushes)
  by_contra hup
  refine hno ⟨g, hg, fun t => ⟨fun hp => hup ⟨t, .inl hp⟩, fun hp => hup ⟨t, .inr hp⟩⟩⟩

/-- Of two games of a device one sleeps while the other has not asked. -/
theorem no_lost_wakeup_of_two_games : ∃ c : Course, c.Reachable ∧
    (c.hub.client 0).phase = .asleep 0 ∧
    (c.hub.device 0).isReady = false ∧ ∃ g ∈ c.games, ∀ t, (c.hub.client g.1).phase ≠ .asleep t ∧
        (c.hub.client g.2).phase ≠ .asleep t := by
  have h₀ : (start [.empty "cpu" 1]).Reachable :=
    ⟨_, [], fun d hd => ⟨"cpu", 1, by rw [List.mem_singleton.mp hd]; rfl⟩, .rest⟩
  have h₁ := h₀.act (a := .load 0 (fun _ _ => .ok .uniform) "uniform") trivial rfl
  have h₂ := (h₁.act (a := .addClient 0 0) rfl rfl).act (a := .addClient 0 0) rfl rfl
  have h₃ := (h₂.act (a := .addClient 0 0) rfl rfl).act (a := .addClient 0 0) rfl rfl
  have h₄ := h₃.act (a := .event (.startGame 0 1))
    ⟨by decide, by decide, by decide, by rintro g ⟨⟩, by rintro g ⟨⟩⟩ rfl
  have h₅ := h₄.act (a := .event (.startGame 2 3)) ⟨by decide, by decide, by decide,
    by rintro g (_ | ⟨_, ⟨⟩⟩); decide, by rintro g (_ | ⟨_, ⟨⟩⟩); decide⟩ rfl
  have h₆ := (h₅.act (a := .event (.request 0 [.initial .zero]))
    ⟨1, .inl (List.mem_cons_of_mem _ List.mem_cons_self), rfl, rfl⟩ rfl).act
      (a := .event (.proceed 0)) trivial rfl
  exact ⟨_, h₆, rfl, (h₆.no_lost_wakeup.1 0 0 rfl).2,
    h₆.no_lost_wakeup.2 (List.cons_ne_nil _ _) rfl⟩

end Course

end Goban
