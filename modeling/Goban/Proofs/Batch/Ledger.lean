import Goban.Proofs.Batch.Moves
import Goban.Proofs.Batch.Routing

/-!
# What every course keeps

The games, the tickets and the requests of a course are in order at each moment
(`Course.Reachable.kept`). Every event is taken apart into changes of one device and of one
client, each of which keeps the whole ledger.
-/

namespace Goban

/-- Games, tickets and requests are in order. -/
structure Ledger (h : Hub) (games : List (Nat × Nat)) (asked : Nat → List Position)
    (returned : Nat → List Nat) : Prop where
  census : Census h games
  tickets : Tickets h returned
  routed : Routed h asked

namespace Ledger

variable {h h' : Hub} {games : List (Nat × Nat)} {asked : Nat → List Position}
  {returned : Nat → List Nat} {a b i x t : Nat}

/-! ## Changes that concern nobody's request -/

theorem measure (hl : Ledger h games asked returned) (ms : List Measurement) :
    Ledger (h.measure ms) games asked returned :=
  ⟨hl.census.measure ms, hl.tickets.measure ms, hl.routed.measure ms⟩

theorem wake (hl : Ledger h games asked returned) (i : Nat) :
    Ledger (h.wake i) games asked returned :=
  ⟨hl.census.wake i, hl.tickets.wake i, hl.routed.wake i⟩

theorem stir (hl : Ledger h games asked returned) (x : Nat) :
    Ledger (h.stir x) games asked returned := by
  refine ⟨hl.census.stir x, ?_, ?_⟩
  · exact hl.tickets.changeClient (Client.rouse_device _ _) (Client.rouse_ticket? _ _)
      (Client.rouse_batch _ _)
  · refine hl.routed.changeClient ⟨Client.rouse_device _ _, Client.rouse_key _ _⟩
      (fun t ht => ?_) ?_ fun ps hps => ?_
    · rwa [Client.rouse_ticket?] at ht
    · rw [Client.rouse_batch]
      exact List.Subset.refl _
    · rw [Client.rouse_phase_eq_iff _ rfl, Client.rouse_phase_eq_iff _ rfl] at hps
      exact hl.routed.sending x ps hps

/-- Neither the models of a device that are new nor its games concern any request. -/
theorem recount (ht : Tickets h returned) (hr : Routed h asked) {models : List LoadedModel}
    (hmodels : (h.device i).models <+: models) (live away : Nat) :
    Tickets (h.setDevice i { h.device i with models, live, away }) returned ∧
      Routed (h.setDevice i { h.device i with models, live, away }) asked :=
  ⟨ht.setDevice rfl rfl rfl rfl,
    hr.setDevice hmodels rfl (List.Subset.refl _)⟩

theorem load (hl : Ledger h games asked returned) (i : Nat) (loader : Loader) (path : String) :
    Ledger (h.load i loader path) games asked returned := by
  rcases h.load_eq i loader path with he | ⟨models, hmodels, he⟩
  · rw [he]
    exact hl
  · rw [he]
    obtain ⟨ht, hr⟩ := recount hl.tickets hl.routed hmodels (h.device i).live (h.device i).away
    exact ⟨hl.census.setDevice rfl rfl rfl, ht, hr⟩

theorem addClient (hl : Ledger h games asked returned) {key : ModelKey}
    (hok : h.addClient i key = .ok (x, h')) : Ledger h' games asked returned := by
  obtain ⟨hkey, name, rfl⟩ := Hub.addClient_eq_ok hok
  have hi : i < h.devices.size := by
    by_contra hi
    rw [Hub.device_of_le (Nat.not_lt.mp hi)] at hkey
    cases hkey
  exact ⟨hl.census.addClient hi ⟨rfl, rfl, rfl⟩, hl.tickets.addClient rfl,
    hl.routed.addClient hkey name⟩

theorem flush (hl : Ledger h games asked returned) (i : Nat) :
    Ledger (h.flush i) games asked returned :=
  ⟨hl.census.flush i, hl.tickets.flush i, hl.routed.flush i⟩

theorem runFlush (hl : Ledger h games asked returned) {k : Nat} (hok : h.runFlush k = .ok h') :
    Ledger h' games asked returned := by
  unfold Hub.runFlush at hok
  split at hok
  · cases hok
    exact hl
  · rename_i i batch hflush
    obtain ⟨run, hrun, rfl⟩ := Hub.runBatch_eq_ok hok
    have hmem : (i, batch) ∈ h.flushes := List.mem_of_getElem? hflush
    have hm := hl.measure (Hub.callsOf (h.device i).name run)
    have hlaid : Routed ((h.measure (Hub.callsOf (h.device i).name run)).setDevice i
        ((h.device i).publish run)) asked :=
      hm.routed.setDevice List.prefix_rfl rfl (List.Subset.refl _)
    have hrouted := hlaid.dropFlush k
    have htickets := hm.tickets.runFlush hflush (hl.routed.flushed _ hmem) hrun
    have hcensus : Census ((h.measure (Hub.callsOf (h.device i).name run)).setDevice i
        ((h.device i).publish run)) games := hm.census.setDevice rfl rfl rfl
    refine Ledger.wake ⟨?_, htickets, hrouted⟩ i
    exact ⟨hcensus.once, hcensus.known, hcensus.home, hcensus.free, hcensus.bond, hcensus.live,
      hcensus.away, hcensus.asking⟩

/-! ## One request -/

theorem request (hl : Ledger h games asked returned) {y : Nat}
    (hg : (x, y) ∈ games ∨ (y, x) ∈ games)
    (hx : (h.client x).phase = .idle) (hy : (h.client y).phase = .idle)
    (positions : List Position) :
    Ledger (h.setPhase x (Hub.afterAsking (h.client x) positions)) games
      (Function.update asked x positions) returned := by
  have hasked := hl.routed.ask (by rw [hx]; rfl) positions
  have hphase : Hub.afterAsking (h.client x) positions = .leaving positions ∨
      Hub.afterAsking (h.client x) positions = .submitting positions ∨
      positions = [] ∧ Hub.afterAsking (h.client x) positions = .answered [] := by
    unfold Hub.afterAsking
    split
    · exact .inr (.inr ⟨List.isEmpty_iff.mp ‹_›, rfl⟩)
    · split
      · exact .inl rfl
      · exact .inr (.inl rfl)
  refine ⟨hl.census.request hg hx hy, ?_, ?_⟩
  · refine hl.tickets.changeClient rfl ?_ ?_
    · rcases hphase with hp | hp | ⟨-, hp⟩ <;> rw [hp, hx] <;> rfl
    · rcases hphase with hp | hp | ⟨-, hp⟩ <;> rw [hp, hx] <;> rfl
  · refine hasked.setPhase (fun t ht => ?_) ?_ fun ps hps => ?_
    · rcases hphase with hp | hp | ⟨-, hp⟩ <;> rw [hp] at ht <;> cases ht
    · rcases hphase with hp | hp | ⟨-, hp⟩ <;> rw [hp] <;> exact List.nil_subset _
    · rw [Function.update_self]
      rcases hphase with hp | hp | ⟨-, hp⟩ <;> rw [hp] at hps
      · simpa using hps
      · simpa using hps
      · simp at hps

theorem leave (hl : Ledger h games asked returned) {positions : List Position} {d : Device}
    (hp : (h.client x).phase = .leaving positions)
    (hleave : (h.device ((h.client x).opponentDevice.getD (h.client x).device)).leave = .ok d) :
    Ledger (((h.setDevice ((h.client x).opponentDevice.getD (h.client x).device) d).wake
      ((h.client x).opponentDevice.getD (h.client x).device)).setPhase x (.submitting positions))
      games asked returned := by
  obtain rfl := Device.leave_eq_ok hleave
  obtain ⟨ht, hr⟩ := recount hl.tickets hl.routed List.prefix_rfl _ _
  rw [← Hub.wake_setPhase _ _ _ (by simp)]
  refine Ledger.wake ⟨hl.census.leave hp hleave, ?_, ?_⟩ _
  · refine ht.changeClient rfl ?_ ?_ <;> rw [Hub.client_setDevice, hp] <;> rfl
  · refine hr.setPhase (fun t ht => by cases ht) (List.nil_subset _) fun ps hps => ?_
    exact hl.routed.sending x ps (.inl (by simpa [hp] using hps))

theorem rejoin (hl : Ledger h games asked returned) {answer : List Evaluation} {d : Device}
    (hp : (h.client x).phase = .rejoining answer)
    (hrejoin : (h.device ((h.client x).opponentDevice.getD (h.client x).device)).rejoin = .ok d) :
    Ledger ((h.setDevice ((h.client x).opponentDevice.getD (h.client x).device) d).setPhase x
      (.answered answer)) games asked returned := by
  obtain ⟨-, rfl⟩ := Device.rejoin_eq_ok hrejoin
  obtain ⟨ht, hr⟩ := recount hl.tickets hl.routed List.prefix_rfl _ _
  refine ⟨hl.census.rejoin hp hrejoin, ?_, ?_⟩
  · refine ht.changeClient rfl ?_ ?_ <;> rw [Hub.client_setDevice, hp] <;> rfl
  · exact hr.setPhase (fun t ht => by cases ht) (List.nil_subset _) (by simp)

theorem submit (hl : Ledger h games asked returned) {positions : List Position} {d : Device}
    (hp : (h.client x).phase = .submitting positions)
    (hsubmit : (h.device (h.client x).device).submit (h.client x).key positions = .ok (t, d)) :
    Ledger ((h.setDevice (h.client x).device d).setPhase x (.awake t)) games asked returned := by
  obtain ⟨y, hg, -⟩ := hl.census.exists_leads (x := x) (by rw [hp]; rfl)
  have hx := hl.census.known_of_game hg
  have hi := hl.census.home_of_game hg
  exact ⟨hl.census.submit hp hsubmit,
    hl.tickets.submit hx hi (by rw [hp]; rfl) (by rw [hp]; rfl) hsubmit,
    hl.routed.submit hl.tickets hp hx hi hsubmit⟩

/-- A client that looks for its answer gets it, takes a batch, or sleeps. -/
theorem look (hl : Ledger h games asked returned) (hp : (h.client x).phase = .awake t) :
    Ledger (h.look x t) games asked
      (Course.giveBack returned (h.client x).device t ((h.look x t).client x).phase) := by
  have hx : x < h.clients.size := Tickets.known_of_ticket? (by rw [hp]; rfl)
  have hi := hl.census.home x hx
  rcases h.look_cases x t with ⟨answer, d, hcollect, hlook⟩ | ⟨-, -, hlook⟩ | ⟨-, -, hlook⟩
  · have hafter : Hub.afterCollecting (h.client x) answer = .rejoining answer ∨
        Hub.afterCollecting (h.client x) answer = .answered answer := by
      unfold Hub.afterCollecting
      split
      · exact .inl rfl
      · exact .inr rfl
    have hphase : ((h.look x t).client x).phase = Hub.afterCollecting (h.client x) answer := by
      rw [hlook, Hub.phase_setPhase (h := h.setDevice _ _) hx]
    have hback : ((h.look x t).client x).phase.hasAnswer = true := by
      rw [hphase]
      rcases hafter with hp' | hp' <;> rw [hp'] <;> rfl
    obtain ⟨-, hd⟩ := Device.collect?_eq_some hcollect
    have hset : Routed (h.setDevice (h.client x).device d) asked :=
      hl.routed.setDevice (by rw [hd]) (by rw [hd]) (by rw [hd]; exact List.Subset.refl _)
    rw [Course.giveBack, if_pos hback, hlook]
    refine ⟨hl.census.collect hp hcollect, hl.tickets.collect hp hi hcollect ?_ ?_,
      hset.setPhase (fun s hs => ?_) ?_ fun ps hps => ?_⟩
    · rcases hafter with hp' | hp' <;> rw [hp'] <;> rfl
    · rcases hafter with hp' | hp' <;> rw [hp'] <;> rfl
    · rcases hafter with hp' | hp' <;> rw [hp'] at hs <;> cases hs
    · rcases hafter with hp' | hp' <;> rw [hp'] <;> exact List.nil_subset _
    · rcases hafter with hp' | hp' <;> rw [hp'] at hps <;> simp at hps
  · have hphase : ((h.look x t).client x).phase =
        .running t (h.device (h.client x).device).pending := by
      rw [hlook, Hub.phase_setPhase (h := h.setDevice _ _) hx]
    rw [Course.giveBack, if_neg (by rw [hphase]; simp [Phase.hasAnswer]), hlook]
    exact ⟨hl.census.take hp _, hl.tickets.take hp hi, hl.routed.take hp hx hi⟩
  · have hphase : ((h.look x t).client x).phase = .asleep t := by
      rw [hlook, Hub.phase_setPhase hx]
    rw [Course.giveBack, if_neg (by rw [hphase]; simp [Phase.hasAnswer]), hlook]
    refine ⟨hl.census.sleep hp, ?_, ?_⟩
    · refine hl.tickets.changeClient rfl ?_ ?_ <;> rw [hp] <;> rfl
    · refine hl.routed.setPhase (fun s hs => ?_) (List.nil_subset _) (by simp)
      rw [hp]
      exact hs

/-- What a client finds does not depend on what it did before. -/
theorem look_of_awake (hl : Ledger (h.setPhase x (.awake t)) games asked returned)
    (hx : x < h.clients.size) :
    Ledger (h.look x t) games asked
      (Course.giveBack returned (h.client x).device t ((h.look x t).client x).phase) := by
  have hclient : (h.setPhase x (.awake t)).client x = { h.client x with phase := .awake t } :=
    Hub.client_setPhase_self hx _
  have hlook := hl.look (x := x) (t := t) (by rw [hclient])
  rwa [Hub.look_setPhase, hclient] at hlook

/-- A client makes its request and looks for a full batch. -/
theorem ask (hl : Ledger h games asked returned) {positions : List Position} {d : Device}
    (hp : (h.client x).phase = .submitting positions)
    (hsubmit : (h.device (h.client x).device).submit (h.client x).key positions = .ok (t, d)) :
    Ledger ((h.setDevice (h.client x).device d).look x t) games asked
      (Course.giveBack returned (h.client x).device t
        (((h.setDevice (h.client x).device d).look x t).client x).phase) := by
  obtain ⟨y, hg, -⟩ := hl.census.exists_leads (x := x) (by rw [hp]; rfl)
  exact (hl.submit hp hsubmit).look_of_awake (hl.census.known_of_game hg)

/-- A client lays out the answers of its batch. -/
theorem publish (hl : Ledger h games asked returned) {batch : List Request}
    (hp : (h.client x).phase = .running t batch)
    (hok : h.runBatch (h.client x).device batch = .ok h') :
    Ledger (h'.setPhase x (.awake t)) games asked returned ∧ h'.clients.size = h.clients.size ∧
      (h'.client x).device = (h.client x).device := by
  have hi := hl.census.home x (Tickets.known_of_ticket? (by rw [hp]; rfl))
  obtain ⟨run, hrun, rfl⟩ := Hub.runBatch_eq_ok hok
  refine ⟨?_, by simp, by simp⟩
  have hm := hl.measure (Hub.callsOf (h.device (h.client x).device).name run)
  have hrouted : Routed ((h.measure (Hub.callsOf (h.device (h.client x).device).name run)).setDevice
      (h.client x).device ((h.device (h.client x).device).publish run)) asked :=
    hm.routed.setDevice List.prefix_rfl rfl (List.Subset.refl _)
  rw [← Hub.wake_setPhase _ _ _ (by simp)]
  refine Ledger.wake ⟨hm.census.publish hp _ run, hm.tickets.publish hp hi hrun, ?_⟩ _
  refine hrouted.setPhase (fun s hs => ?_) (List.nil_subset _) (by simp)
  rw [Hub.client_setDevice, Hub.client_measure, hp]
  exact hs

/-- A client lays out the answers of its batch and looks for its own. -/
theorem run (hl : Ledger h games asked returned) {batch : List Request}
    (hp : (h.client x).phase = .running t batch)
    (hok : h.runBatch (h.client x).device batch = .ok h') :
    Ledger (h'.look x t) games asked
      (Course.giveBack returned (h.client x).device t ((h'.look x t).client x).phase) := by
  obtain ⟨hlaid, hsize, hdevice⟩ := hl.publish hp hok
  rw [← hdevice]
  exact hlaid.look_of_awake (hsize ▸ Tickets.known_of_ticket? (by rw [hp]; rfl))

theorem handOut (hl : Ledger h games asked returned) {answer : List Evaluation}
    (hp : (h.client x).phase = .answered answer) :
    Ledger (h.setPhase x .idle) games asked returned := by
  refine ⟨hl.census.handOut hp, ?_, hl.routed.rest x fun _ => ⟨rfl, rfl, rfl⟩⟩
  refine hl.tickets.changeClient rfl ?_ ?_ <;> rw [hp] <;> rfl

/-! ## Games begin and end -/

theorem register (ht : Tickets h returned) (hr : Routed h asked) (i : Nat) :
    Tickets (h.register i) returned ∧ Routed (h.register i) asked := by
  obtain ⟨ms, he⟩ := h.register_eq i
  obtain ⟨ht, hr⟩ := recount ht hr List.prefix_rfl ((h.device i).live + 1) (h.device i).away
  exact he ▸ ⟨ht.measure ms, hr.measure ms⟩

theorem unregister (ht : Tickets h returned) (hr : Routed h asked) (hun : h.unregister i = .ok h') :
    Tickets h' returned ∧ Routed h' asked := by
  obtain ⟨d, ms, hd, rfl⟩ := Hub.unregister_eq_ok hun
  obtain ⟨-, rfl⟩ := Device.unregister_eq_ok hd
  obtain ⟨ht, hr⟩ := recount ht hr List.prefix_rfl ((h.device i).live - 1) (h.device i).away
  exact ⟨(ht.measure ms).wake i, (hr.measure ms).wake i⟩

/-- Two clients that have nothing under way may change. -/
theorem rest (ht : Tickets h returned) (hr : Routed h asked)
    (ha : (h.client a).phase.isUnderway = false) (hb : (h.client b).phase.isUnderway = false)
    {f g : Client → Client}
    (hf : ∀ c, ((f c).device = c.device ∧ (f c).key = c.key ∧ (f c).phase.isUnderway = false) ∧
      (g c).device = c.device ∧ (g c).key = c.key ∧ (g c).phase.isUnderway = false) :
    Tickets ((h.changeClient a f).changeClient b g) returned ∧
      Routed ((h.changeClient a f).changeClient b g) asked := by
  refine ⟨?_, (hr.rest a fun c => (hf c).1).rest b fun c => (hf c).2⟩
  refine (ht.rest ha fun c => ⟨(hf c).1.1, (hf c).1.2.2⟩).rest ?_ fun c =>
    ⟨(hf c).2.1, (hf c).2.2.2⟩
  rcases Hub.client_changeClient_cases h a b f with hc | ⟨rfl, -, hc⟩
  · rw [hc]
    exact hb
  · rw [hc]
    exact (hf _).1.2.2

theorem enter (ht : Tickets h returned) (hr : Routed h asked)
    (ha : (h.client a).phase.isUnderway = false) (hb : (h.client b).phase.isUnderway = false) :
    Tickets (h.enter a b) returned ∧ Routed (h.enter a b) asked := by
  obtain ⟨f, g, he, hf⟩ := h.enter_eq a b
  rw [he]
  refine rest ht hr ha hb fun c => ?_
  obtain ⟨⟨h₁, h₂, h₃⟩, h₄, h₅, h₆⟩ := hf c
  exact ⟨⟨h₁, h₂, by rw [h₃]; rfl⟩, h₄, h₅, by rw [h₆]; rfl⟩

theorem exit (ht : Tickets h returned) (hr : Routed h asked)
    (ha : (h.client a).phase.isUnderway = false) (hb : (h.client b).phase.isUnderway = false) :
    Tickets (h.exit a b) returned ∧ Routed (h.exit a b) asked := by
  obtain ⟨f, g, he, hf⟩ := h.exit_eq a b
  rw [he]
  refine rest ht hr ha hb fun c => ?_
  obtain ⟨⟨h₁, h₂, h₃⟩, h₄, h₅, h₆⟩ := hf c
  exact ⟨⟨h₁, h₂, by rw [h₃]; rfl⟩, h₄, h₅, by rw [h₆]; rfl⟩

theorem startGame (hl : Ledger h games asked returned) (hab : a ≠ b) (ha : a < h.clients.size)
    (hb : b < h.clients.size) (hfa : a ∉ members games) (hfb : b ∉ members games)
    (hok : h.startGame a b = .ok h') : Ledger h' ((a, b) :: games) asked returned := by
  have hpa : (h.client a).phase.isUnderway = false := by rw [(hl.census.free a hfa).1]; rfl
  have hpb : (h.client b).phase.isUnderway = false := by rw [(hl.census.free b hfb).1]; rfl
  obtain ⟨ht, hr⟩ := register hl.tickets hl.routed (h.client a).device
  rcases Hub.startGame_eq_ok hok with ⟨hd, rfl⟩ | ⟨hd, rfl⟩
  · obtain ⟨ht, hr⟩ := enter ht hr hpa hpb
    exact ⟨hl.census.start hab ha hb hfa hfb hd, ht, hr⟩
  · obtain ⟨ht, hr⟩ := rest (f := fun c => { c with phase := .opening b })
      (g := fun c => { c with phase := .held }) ht hr hpa hpb
      fun c => ⟨⟨rfl, rfl, rfl⟩, rfl, rfl, rfl⟩
    exact ⟨hl.census.startOpening hab ha hb hfa hfb hd, ht, hr⟩

theorem opening (hl : Ledger h games asked returned) (hp : (h.client a).phase = .opening b) :
    Ledger ((h.register (h.client b).device).enter a b) games asked returned := by
  obtain ⟨-, ho⟩ := hl.census.exists_opens hp
  obtain ⟨ht, hr⟩ := register hl.tickets hl.routed (h.client b).device
  obtain ⟨ht, hr⟩ := enter (a := a) (b := b) ht hr (by
    show (h.client a).phase.isUnderway = false
    rw [hp]
    rfl) (by
    show (h.client b).phase.isUnderway = false
    rw [ho.held]
    rfl)
  exact ⟨hl.census.opening hp, ht, hr⟩

/-- The two clients of a game that ends on a device have nothing under way. -/
theorem endGame (hl : Ledger h games asked returned) (hg : (a, b) ∈ games ∨ (b, a) ∈ games)
    (ha : (h.client a).phase = .idle) (hb : (h.client b).phase = .idle)
    (hok : h.endGame a b = .ok h') :
    Ledger h' (if (h.client a).device = (h.client b).device then
      games.filter fun g => g.1 != a && g.2 != a else games) asked returned := by
  obtain ⟨hub, hun, hcases⟩ := Hub.endGame_eq_ok hok
  obtain ⟨-, -, hclients, -⟩ := Census.unregister_views hun (hl.census.home_of_game hg)
  obtain ⟨ht, hr⟩ := unregister hl.tickets hl.routed hun
  have hpa : (hub.client a).phase = .idle := by
    rw [hclients, Client.rouse_phase_eq_iff _ rfl]
    exact ha
  have hpb : (hub.client b).phase = .idle := by
    rw [hclients, Client.rouse_phase_eq_iff _ rfl]
    exact hb
  rcases hcases with ⟨hd, rfl⟩ | ⟨hd, rfl⟩
  · rw [if_pos hd]
    obtain ⟨ht, hr⟩ := exit (a := a) (b := b) ht hr (by rw [hpa]; rfl) (by rw [hpb]; rfl)
    exact ⟨hl.census.stop hg ha hb hd hun, ht, hr⟩
  · rw [if_neg hd]
    obtain ⟨ht, hr⟩ := rest (a := a) (b := b) (f := fun c => { c with phase := .closing b })
      (g := fun c => { c with phase := .held }) ht hr (by rw [hpa]; rfl) (by rw [hpb]; rfl)
      fun c => ⟨⟨rfl, rfl, rfl⟩, rfl, rfl, rfl⟩
    exact ⟨hl.census.stopClosing hg ha hb hd hun, ht, hr⟩

theorem closing (hl : Ledger h games asked returned) (hp : (h.client a).phase = .closing b)
    {hub : Hub} (hun : h.unregister (h.client b).device = .ok hub) :
    Ledger (hub.exit a b) (games.filter fun g => g.1 != a && g.2 != a) asked returned := by
  obtain ⟨hg, hcl⟩ := hl.census.exists_closes hp
  obtain ⟨-, -, hclients, -⟩ := Census.unregister_views hun (hl.census.home_of_game hg.symm)
  obtain ⟨ht, hr⟩ := unregister hl.tickets hl.routed hun
  have hpa : (hub.client a).phase = .closing b := by
    rw [hclients, Client.rouse_phase_eq_iff _ rfl]
    exact hp
  have hpb : (hub.client b).phase = .held := by
    rw [hclients, Client.rouse_phase_eq_iff _ rfl]
    exact hcl.held
  obtain ⟨ht, hr⟩ := exit (a := a) (b := b) ht hr (by rw [hpa]; rfl) (by rw [hpb]; rfl)
  exact ⟨hl.census.closing hp hun, ht, hr⟩

end Ledger

namespace Course

/-- The games, the tickets and the requests of the course are in order. -/
def Kept (c : Course) : Prop := Ledger c.hub c.games c.asked c.returned

theorem after_event_eq_ok {c c' : Course} {e : Event} (ok : c.after (.event e) = .ok c') :
    ∃ hub, c.hub.act e = .ok hub ∧ c' = c.follow e hub := by
  rw [after] at ok
  obtain ⟨hub, hact, ok⟩ := bind_eq_ok ok
  exact ⟨hub, hact, (Except.ok.inj ok).symm⟩

theorem after_addClient_eq_ok {c c' : Course} {i : Nat} {key : ModelKey}
    (ok : c.after (.addClient i key) = .ok c') :
    ∃ x hub, c.hub.addClient i key = .ok (x, hub) ∧ c' = { c with hub } := by
  rw [after] at ok
  obtain ⟨added, hadd, ok⟩ := bind_eq_ok ok
  exact ⟨added.1, added.2, hadd, (Except.ok.inj ok).symm⟩

/-- A client that can be added may be added to a course. -/
theorem after_addClient {c : Course} {i n : Nat} {key : ModelKey} {hub : Hub}
    (ok : c.hub.addClient i key = .ok (n, hub)) : n = c.hub.clients.size ∧
      c.Allows (.addClient i key) ∧ c.after (.addClient i key) = .ok { c with hub } ∧
        hub.clients.size = c.hub.clients.size + 1 := by
  obtain ⟨hkey, name, hhub⟩ := Hub.addClient_eq_ok ok
  refine ⟨?_, ?_, ?_, by rw [hhub]; exact Array.size_push _⟩
  · unfold Hub.addClient at ok
    split at ok
    · cases ok
    · exact (Prod.mk.inj (Except.ok.inj ok)).1.symm
  · show ((c.hub.device i).modelName? key).isSome = true
    rw [Device.modelName?, List.getElem?_eq_getElem hkey]
    rfl
  · rw [after, ok]
    rfl

section Step

variable {c c' : Course}

/-- What a client does next keeps the ledger, whatever it is about to do. -/
theorem Kept.proceed (hl : c.Kept) {x : Nat} {hub : Hub} (hok : c.hub.proceed x = .ok hub) :
    (c.follow (.proceed x) hub).Kept := by
  unfold Kept at hl
  simp only [Kept, follow, gamesAfter, askedAfter, returnedAfter, ticketOf?]
  cases Hub.proceed_eq_ok hok with
  | leave hp hleave =>
    simp only [hp]
    exact hl.leave hp hleave
  | submit hp hsubmit =>
    simp only [hp]
    obtain ⟨-, rfl, -⟩ := Device.submit_eq_ok hsubmit
    exact hl.ask hp hsubmit
  | look hp =>
    simp only [hp]
    exact hl.look hp
  | run hp hrun =>
    simp only [hp]
    exact hl.run hp hrun
  | rejoin hp hrejoin =>
    simp only [hp]
    exact hl.rejoin hp hrejoin
  | opening hp =>
    simp only [hp]
    exact hl.opening hp
  | closing hp hun =>
    simp only [hp]
    exact hl.closing hp hun
  | rest hp =>
    rcases hp with hp | ⟨t, hp⟩ | ⟨answer, hp⟩ | hp
    -- Nothing is done, and nobody gets an answer.
    all_goals
      simp only [hp]
      exact hl

theorem Kept.event (hl : c.Kept) {e : Event} (allowed : c.Allows (.event e)) {hub : Hub}
    (hok : c.hub.act e = .ok hub) : (c.follow e hub).Kept := by
  cases e with
  | startGame a b =>
    obtain ⟨hab, ha, hb, hfa, hfb⟩ := allowed
    exact Ledger.startGame hl hab ha hb (Census.not_mem_members hfa)
      (Census.not_mem_members hfb) hok
  | endGame a b =>
    obtain ⟨hg, ha, hb⟩ := allowed
    exact Ledger.endGame hl hg ha hb hok
  | request x positions =>
    obtain ⟨y, hg, hx, hy⟩ := allowed
    cases Hub.act_request_eq_ok hok
    exact Ledger.request hl hg hx hy positions
  | proceed x => exact hl.proceed hok
  | collect x =>
    rcases Hub.act_collect_eq_ok hok with rfl | ⟨answer, hp, rfl⟩
    · exact hl
    · exact Ledger.handOut hl hp
  | flush i =>
    cases hok
    exact Ledger.flush hl i
  | runFlush k => exact Ledger.runFlush hl hok
  | stir x =>
    cases hok
    exact Ledger.stir hl x

theorem Kept.after (hl : c.Kept) {a : Act} (allowed : c.Allows a) (ok : c.after a = .ok c') :
    c'.Kept := by
  cases a with
  | load i loader path =>
    cases ok
    exact Ledger.load hl i loader path
  | addClient i key =>
    obtain ⟨x, hub, hadd, rfl⟩ := after_addClient_eq_ok ok
    exact Ledger.addClient hl hadd
  | event e =>
    obtain ⟨hub, hact, rfl⟩ := after_event_eq_ok ok
    exact hl.event allowed hact

end Step

/-- A new device is empty. -/
theorem device_start {devices : List Device}
    (hnew : ∀ d ∈ devices, ∃ name buffers, Device.new name buffers = .ok d) (i : Nat) :
    ∃ name buffers, (start devices).hub.device i = .empty name buffers := by
  by_cases hi : i < devices.length
  · obtain ⟨name, buffers, hd⟩ := hnew devices[i] (List.getElem_mem hi)
    refine ⟨name, buffers, ?_⟩
    unfold Device.new at hd
    split at hd
    · cases hd
    · simp [start, Hub.new, Hub.device, hi, ← Except.ok.inj hd]
  · exact ⟨"", 1, Hub.device_of_le (by simpa [start, Hub.new] using hi)⟩

/-- New devices hold nothing. -/
theorem kept_start {devices : List Device}
    (hnew : ∀ d ∈ devices, ∃ name buffers, Device.new name buffers = .ok d) :
    (start devices).Kept := by
  have hdevice := device_start hnew
  have hout : ∀ i, (start devices).hub.outstanding i = 0 := by
    intro i
    obtain ⟨name, buffers, hd⟩ := hdevice i
    unfold Hub.outstanding
    rw [hd]
    rfl
  refine ⟨?_, ?_, ?_⟩
  · refine ⟨List.nodup_nil, ?_, ?_, fun _ _ => ⟨rfl, rfl, rfl⟩, ?_, fun i => ?_, fun i => ?_,
      fun i => ?_⟩
    · intro x hx
      cases hx
    · intro x hx
      cases hx
    · intro g hg
      cases hg
    all_goals
      obtain ⟨name, buffers, hd⟩ := hdevice i
      rw [hd]
      rfl
  · refine ⟨fun i => ?_, fun i => ?_, fun i => ?_⟩
    · obtain ⟨name, buffers, hd⟩ := hdevice i
      rw [hout, hd]
      rfl
    · rw [hout]
      rfl
    · obtain ⟨name, buffers, hd⟩ := hdevice i
      rw [hout, hd]
      rfl
  · refine ⟨?_, ?_, ?_, ?_⟩
    · intro f hf
      cases hf
    · intro x hx
      cases hx
    · intro x t r ht
      cases ht
    · intro x positions hp
      rcases hp with hp | hp <;> cases hp

/-- In every course everything is in order. -/
theorem Reachable.kept {c : Course} (hc : c.Reachable) : c.Kept :=
  hc.induction (fun _ hnew => kept_start hnew) fun _ _ _ hl allowed ok => hl.after allowed ok

end Course

end Goban
