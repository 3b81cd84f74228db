import Goban.Proofs.Batch.Chronicle

/-!
# The books of a device

A device counts the requests and positions of a batch when the batch has been run; the answers stay
with it, and then with its clients, until they are handed out (`Hub.owed`). Both change in two ways
only: a batch is run, or a client hands out its answer. Whatever else happens leaves the books as they
are (`Hub.SameBooks`, `Course.Kept.effect`).
-/

namespace Goban

/-! ## What is owed to clients -/

namespace Phase

/-- The requests and positions in the answer that a client has. -/
def inHand : Phase → Nat × Nat
  | rejoining answer | answered answer => loadOf answer.length
  | _ => 0

@[simp] theorem inHand_stirred (p : Phase) : p.stirred.inHand = p.inHand := by cases p <;> rfl

theorem inHand_of_not_underway {p : Phase} (h : p.isUnderway = false) : p.inHand = 0 := by
  cases p <;> first | rfl | cases h

end Phase

@[simp] theorem Client.inHand_rouse (c : Client) (i : Nat) :
    (c.rouse i).phase.inHand = c.phase.inHand := by
  rcases c.rouse_eq i with h | h <;> simp [h]

@[simp] theorem Client.isUnderway_rouse (c : Client) (i : Nat) :
    (c.rouse i).phase.isUnderway = c.phase.isUnderway := by
  rcases c.rouse_eq i with h | h
  · rw [h]
  · rw [h, Client.stirred_phase]
    cases c.phase <;> rfl

@[simp] theorem Hub.inHand_afterCollecting (c : Client) (answer : List Evaluation) :
    (Hub.afterCollecting c answer).inHand = loadOf answer.length := by
  unfold Hub.afterCollecting
  split <;> rfl

@[simp] theorem Hub.inHand_afterAsking (c : Client) (positions : List Position) :
    (Hub.afterAsking c positions).inHand = 0 := by
  unfold Hub.afterAsking
  split
  · rfl
  · split <;> rfl

/-- Whether the measurement is that of a call of a model. -/
def Measurement.isCall : Measurement → Bool
  | liveGames _ _ => false
  | call _ _ _ => true

namespace Hub

/-- The answers of a device that its clients have not handed out. -/
def owed (h : Hub) (i : Nat) : Nat × Nat :=
  h.totalOn i Phase.inHand + loadOfResults (h.device i).results

/-- The calls of models that were measured, the latest first. -/
def measuredCalls (h : Hub) : List Measurement := h.journal.filter Measurement.isCall

/-- Nothing was counted, handed out or called. -/
structure SameBooks (h h' : Hub) : Prop where
  stats : ∀ i, (h'.device i).stats = (h.device i).stats
  owed : ∀ i, h'.owed i = h.owed i
  calls : h'.measuredCalls = h.measuredCalls

namespace SameBooks

variable {h h' h'' : Hub} {a b i x t : Nat} {p : Phase}

theorem refl (h : Hub) : SameBooks h h := ⟨fun _ => rfl, fun _ => rfl, rfl⟩

theorem trans (hs : SameBooks h h') (hs' : SameBooks h' h'') : SameBooks h h'' where
  stats i := (hs'.stats i).trans (hs.stats i)
  owed i := (hs'.owed i).trans (hs.owed i)
  calls := hs'.calls.trans hs.calls

theorem setDevice {d : Device} (stats : d.stats = (h.device i).stats)
    (results : d.results = (h.device i).results) : SameBooks h (h.setDevice i d) := by
  have hsame : ∀ j, ((h.setDevice i d).device j).stats = (h.device j).stats ∧
      ((h.setDevice i d).device j).results = (h.device j).results := by
    intro j
    rcases device_setDevice_cases h i j d with hd | ⟨rfl, -, hd⟩
    · rw [hd]
      exact ⟨rfl, rfl⟩
    · rw [hd]
      exact ⟨stats, results⟩
  refine ⟨fun j => (hsame j).1, fun j => ?_, rfl⟩
  unfold Hub.owed
  rw [(hsame j).2]
  rfl

theorem changeClient {f : Client → Client}
    (device : (f (h.client x)).device = (h.client x).device)
    (inHand : (f (h.client x)).phase.inHand = (h.client x).phase.inHand) :
    SameBooks h (h.changeClient x f) := by
  refine ⟨fun _ => rfl, fun i => ?_, rfl⟩
  unfold Hub.owed totalOn
  rw [h.total_changeClient_of_eq _ x f (by rw [device, inHand])]
  rfl

theorem setPhase (inHand : p.inHand = (h.client x).phase.inHand) : SameBooks h (h.setPhase x p) :=
  changeClient rfl inHand

theorem wake (h : Hub) (i : Nat) : SameBooks h (h.wake i) := by
  refine ⟨fun _ => rfl, fun j => ?_, rfl⟩
  unfold Hub.owed
  rw [totalOn_wake Phase.inHand_stirred]
  rfl

theorem measure_liveGames (h : Hub) (name : String) (games : Nat) :
    SameBooks h (h.measure [.liveGames name games]) := ⟨fun _ => rfl, fun _ => rfl, rfl⟩

/-- Two clients that have nothing under way may change. -/
theorem rest {f g : Client → Client} (ha : (h.client a).phase.isUnderway = false)
    (hb : (h.client b).phase.isUnderway = false)
    (hf : ∀ c, ((f c).device = c.device ∧ (f c).phase.isUnderway = false) ∧
      (g c).device = c.device ∧ (g c).phase.isUnderway = false) :
    SameBooks h ((h.changeClient a f).changeClient b g) := by
  have hzero : ∀ {p q : Phase}, p.isUnderway = false → q.isUnderway = false →
      p.inHand = q.inHand := fun hp hq => by
    rw [Phase.inHand_of_not_underway hp, Phase.inHand_of_not_underway hq]
  have hafter : ((h.changeClient a f).client b).phase.isUnderway = false := by
    rcases client_changeClient_cases h a b f with hc | ⟨-, -, hc⟩
    · rwa [hc]
    · rw [hc]
      exact (hf _).1.2
  exact (changeClient (hf _).1.1 (hzero (hf _).1.2 ha)).trans
    (changeClient (hf _).2.1 (hzero (hf _).2.2 hafter))

/-! ### Games -/

theorem register (h : Hub) (i : Nat) : SameBooks h (h.register i) := by
  unfold Hub.register
  refine trans ?_ (measure_liveGames _ _ _)
  exact setDevice rfl rfl

theorem unregister (hok : h.unregister i = .ok h') : SameBooks h h' := by
  unfold Hub.unregister at hok
  obtain ⟨d, hd, hok⟩ := bind_eq_ok hok
  cases hok
  obtain ⟨-, rfl⟩ := Device.unregister_eq_ok hd
  refine trans (trans ?_ (measure_liveGames _ _ _)) (wake _ i)
  exact setDevice rfl rfl

theorem enter (ha : (h.client a).phase.isUnderway = false)
    (hb : (h.client b).phase.isUnderway = false) : SameBooks h (h.enter a b) := by
  obtain ⟨f, g, he, hf⟩ := h.enter_eq a b
  rw [he]
  refine rest ha hb fun c => ?_
  obtain ⟨⟨hdevice, -, hp⟩, hdevice', -, hp'⟩ := hf c
  exact ⟨⟨hdevice, by rw [hp]; rfl⟩, hdevice', by rw [hp']; rfl⟩

theorem exit (ha : (h.client a).phase.isUnderway = false)
    (hb : (h.client b).phase.isUnderway = false) : SameBooks h (h.exit a b) :=
  rest ha hb fun _ => ⟨⟨rfl, rfl⟩, rfl, rfl⟩

theorem startGame (ha : (h.client a).phase.isUnderway = false)
    (hb : (h.client b).phase.isUnderway = false) (hok : h.startGame a b = .ok h') :
    SameBooks h h' := by
  have hregister : ∀ i {x}, (h.client x).phase.isUnderway = false →
      ((h.register i).client x).phase.isUnderway = false := fun i x hx => by
    rw [Hub.client_register]
    exact hx
  rcases Hub.startGame_eq_ok hok with ⟨-, rfl⟩ | ⟨-, rfl⟩
  · exact .trans (.register _ _) (.enter (hregister _ ha) (hregister _ hb))
  · exact .trans (.register _ _) (.rest (hregister _ ha) (hregister _ hb)
      fun _ => ⟨⟨rfl, rfl⟩, rfl, rfl⟩)

/-- The device that loses a game stirs its clients, and nobody gets under way by that. -/
theorem not_underway_of_unregister (hok : h.unregister i = .ok h')
    (hx : (h.client x).phase.isUnderway = false) : (h'.client x).phase.isUnderway = false := by
  obtain ⟨d, ms, -, rfl⟩ := Hub.unregister_eq_ok hok
  simpa using hx

theorem endGame (ha : (h.client a).phase.isUnderway = false)
    (hb : (h.client b).phase.isUnderway = false) (hok : h.endGame a b = .ok h') :
    SameBooks h h' := by
  obtain ⟨hub, hun, hcases⟩ := Hub.endGame_eq_ok hok
  have ha' := not_underway_of_unregister hun ha
  have hb' := not_underway_of_unregister hun hb
  rcases hcases with ⟨-, rfl⟩ | ⟨-, rfl⟩
  · exact .trans (.unregister hun) (.exit ha' hb')
  · exact .trans (.unregister hun) (.rest ha' hb' fun _ => ⟨⟨rfl, rfl⟩, rfl, rfl⟩)

/-! ### Requests -/

/-- An answer that a client gets is owed to it as before, and is no longer laid out. -/
theorem collect {answer : List Evaluation} {d : Device} (hx : x < h.clients.size)
    (hi : (h.client x).device < h.devices.size)
    (nodup : (h.device (h.client x).device).published.Nodup)
    (hp : (h.client x).phase.inHand = 0)
    (hcollect : (h.device (h.client x).device).collect? t = some (answer, d)) :
    SameBooks h ((h.setDevice (h.client x).device d).setPhase x
      (afterCollecting (h.client x) answer)) := by
  obtain ⟨hmem, rfl⟩ := Device.collect?_eq_some hcollect
  have hresults := loadOfResults_filter (Multiset.coe_nodup.mp nodup) hmem
  have hdevice := fun j (d : Device) => device_setDevice (h := h) j d hi
  refine ⟨fun j => ?_, fun j => ?_, rfl⟩
  · rw [Hub.setPhase, device_changeClient, hdevice]
    split
    · subst j
      rfl
    · rfl
  · have htotal := totalOn_setDevice_setPhase (f := Phase.inHand)
      (p := afterCollecting (h.client x) answer) hx (h.client x).device
      { h.device (h.client x).device with
        results := (h.device (h.client x).device).results.filter (·.1 != t)
        asking := (h.device (h.client x).device).asking - 1 } j
    rw [hp, ite_self, add_zero, inHand_afterCollecting] at htotal
    unfold Hub.owed
    rw [htotal, Hub.setPhase, device_changeClient, hdevice]
    by_cases hj : j = (h.client x).device
    · subst hj
      rw [if_pos rfl, if_pos rfl, ← hresults, add_assoc]
    · rw [if_neg (Ne.symm hj), if_neg hj, add_zero]

theorem look (hx : x < h.clients.size) (hi : (h.client x).device < h.devices.size)
    (nodup : (h.device (h.client x).device).published.Nodup)
    (hp : (h.client x).phase.inHand = 0) : SameBooks h (h.look x t) := by
  rcases h.look_cases x t with ⟨answer, d, hcollect, hlook⟩ | ⟨-, -, hlook⟩ | ⟨-, -, hlook⟩
  · rw [hlook]
    exact collect hx hi nodup hp hcollect
  · rw [hlook]
    refine trans ?_ (setPhase hp.symm)
    exact setDevice rfl rfl
  · rw [hlook]
    exact setPhase hp.symm

theorem flush (h : Hub) (i : Nat) : SameBooks h (h.flush i) := by
  unfold Hub.flush
  simp only
  split
  · exact refl h
  · have hset : SameBooks h (h.setDevice i (h.device i).taken) := setDevice rfl rfl
    exact ⟨hset.stats, hset.owed, hset.calls⟩

end SameBooks

end Hub

/-! ## Who waits has asked for something -/

namespace Phase

/-- Whether a client has begun a request for some positions and is not through with it. -/
def isBusy : Phase → Bool
  | leaving _ | submitting _ | awake _ | asleep _ | running _ _ | rejoining _ => true
  | _ => false

@[simp] theorem isBusy_stirred (p : Phase) : p.stirred.isBusy = p.isBusy := by cases p <;> rfl

theorem isUnderway_of_isBusy {p : Phase} (h : p.isBusy = true) : p.isUnderway = true := by
  cases p <;> first | rfl | cases h

theorem isBusy_of_ticket? {p : Phase} {t : Nat} (h : p.ticket? = some t) : p.isBusy = true := by
  cases p <;> first | rfl | cases h

end Phase

/-- A client is busy after an event only if it was so before, or has asked for some positions. -/
theorem Hub.busy_of_act {h h' : Hub} {e : Event} {x : Nat} (hok : h.act e = .ok h')
    (hbusy : (h'.client x).phase.isBusy = true) : (h.client x).phase.isBusy = true ∨
      ∃ positions, positions ≠ [] ∧ e = .request x positions := by
  have hidle : ∀ {p : Phase}, p.isBusy = true → p.isUnderway ≠ false := fun hp hnone => by
    rw [Phase.isUnderway_of_isBusy hp] at hnone
    cases hnone
  by_cases hx : e = .proceed x
  · subst hx
    left
    cases Hub.proceed_eq_ok hok with
    | leave hp | submit hp | look hp | run hp | rejoin hp =>
      rw [hp]
      rfl
    | opening => exact absurd (Hub.not_underway_of_enter _ (.inl rfl)) (hidle hbusy)
    | closing => exact absurd (Hub.not_underway_of_exit _ (.inl rfl)) (hidle hbusy)
    | rest => exact hbusy
  · rcases Hub.stirred_or_batch_of_act hok hx with hs | hnone | ⟨positions, rfl, hp⟩
    · left
      rw [← Phase.isBusy_stirred, ← Client.stirred_phase, ← hs, Client.stirred_phase,
        Phase.isBusy_stirred]
      exact hbusy
    · exact absurd hnone (hidle hbusy)
    · refine .inr ⟨positions, ?_, rfl⟩
      rintro rfl
      rw [hp] at hbusy
      cases hbusy

namespace Course

variable {c c' : Course} {a : Act} {e : Event} {hub : Hub} {i x : Nat}

/-- Clients wait for an answer only if they have asked for some positions. -/
def Earnest (c : Course) : Prop :=
  ∀ x, (c.hub.client x).phase.isBusy = true → c.asked x ≠ []

theorem Earnest.follow (h : c.Earnest) (allowed : c.Allows (.event e))
    (ok : c.hub.act e = .ok hub) : (c.follow e hub).Earnest := by
  intro x hbusy
  show c.askedAfter e x ≠ []
  rcases Hub.busy_of_act ok hbusy with hold | ⟨positions, hne, rfl⟩
  · cases e with
    | request y positions =>
      -- Whoever makes a request was idle.
      obtain ⟨-, -, hidle, -⟩ := allowed
      have hyx : x ≠ y := by
        rintro rfl
        rw [show (c.hub.client x).phase = _ from hidle] at hold
        cases hold
      rw [askedAfter, Function.update_of_ne hyx]
      exact h x hold
    | startGame | endGame | proceed | collect | flush | runFlush | stir => exact h x hold
  · rw [askedAfter, Function.update_self]
    exact hne

theorem Earnest.after (h : c.Earnest) (allowed : c.Allows a) (ok : c.after a = .ok c') :
    c'.Earnest := by
  cases a with
  | load i loader path =>
    cases ok
    intro x hbusy
    refine h x ?_
    rcases c.hub.load_eq i loader path with he | ⟨models, -, he⟩
    · rwa [he] at hbusy
    · rwa [he] at hbusy
  | addClient i key =>
    obtain ⟨y, hub, hadd, rfl⟩ := after_addClient_eq_ok ok
    obtain ⟨-, name, rfl⟩ := Hub.addClient_eq_ok hadd
    intro x hbusy
    rw [Hub.client_push] at hbusy
    split at hbusy
    · cases hbusy
    · exact h x hbusy
  | event e =>
    obtain ⟨hub, hact, rfl⟩ := after_event_eq_ok ok
    exact h.follow allowed hact

/-- In every course no request is empty. -/
theorem Kept.positions_ne_nil (hl : c.Kept) (h : c.Earnest) {r : Request} (hr : c.hub.Holds i r) :
    r.positions ≠ [] := by
  obtain ⟨x, rfl, ht⟩ := hl.tickets.exists_owner hr.mem_outstanding
  rw [(hl.routed.held x r.ticket r ht hr rfl).2]
  exact h x (Phase.isBusy_of_ticket? ht)

/-! ## What an event does to the books -/

/-- An event runs a batch, hands out an answer, or leaves the books as they are. -/
inductive Effect (c : Course) : Event → Hub → Prop where
  | nothing {e : Event} {hub : Hub} (batch : c.hub.batchOf? e = none)
      (answer : ∀ x, e = .collect x → c.hub.collect? x = none) (same : c.hub.SameBooks hub) :
      Effect c e hub
  | batch {e : Event} {hub : Hub} {i : Nat} {batch : List Request} {run : Device.BatchRun}
      (taken : c.hub.batchOf? e = some (i, batch)) (home : i < c.hub.devices.size)
      (sized : ∀ r ∈ batch, r.positions ≠ [])
      (ok : Device.runBatch (c.hub.device i).models batch = .ok run)
      (same : ((c.hub.measure (Hub.callsOf (c.hub.device i).name run)).setDevice i
        ((c.hub.device i).publish run)).SameBooks hub) : Effect c e hub
  | answer {x : Nat} {answer : List Evaluation} (phase : (c.hub.client x).phase = .answered answer) :
      Effect c (.collect x) (c.hub.setPhase x .idle)

/-- What a client finds leaves the books as they are. -/
theorem sameBooks_look {h : Hub} {games : List (Nat × Nat)} {asked : Nat → List Position}
    {returned : Nat → List Nat} {t : Nat} (hl : Ledger (h.setPhase x (.awake t)) games asked returned)
    (hx : x < h.clients.size) (hp : (h.client x).phase.inHand = 0) : h.SameBooks (h.look x t) := by
  have hhome := hl.census.home x (by simpa [Hub.setPhase] using hx)
  have hclient : ((h.setPhase x (.awake t)).client x).device = (h.client x).device := by
    rw [Hub.client_setPhase_self hx]
  rw [hclient] at hhome
  exact .look hx hhome (hl.tickets.nodup_published _) hp

theorem Kept.effect_proceed (hl : c.Kept) (h : c.Earnest) (ok : c.hub.proceed x = .ok hub) :
    c.Effect (.proceed x) hub := by
  have nothing : (∀ t batch, (c.hub.client x).phase ≠ .running t batch) → c.hub.SameBooks hub →
      c.Effect (.proceed x) hub := fun hno same => by
    refine .nothing ?_ (fun y hy => by cases hy) same
    simp only [Hub.batchOf?]
  have hknown : ∀ {t}, (c.hub.client x).phase.ticket? = some t → x < c.hub.clients.size :=
    Tickets.known_of_ticket?
  cases Hub.proceed_eq_ok ok with
  | leave hp hleave =>
    obtain rfl := Device.leave_eq_ok hleave
    refine nothing (by simp [hp]) (.trans (.trans ?_ (.wake _ _)) (.setPhase ?_))
    · exact .setDevice rfl rfl
    · rw [Hub.client_wake, Client.inHand_rouse, Hub.client_setDevice, hp]
      rfl
  | submit hp hsubmit =>
    have hlaid := Ledger.submit hl hp hsubmit
    obtain ⟨y, hg, -⟩ := hl.census.exists_leads (x := x) (by rw [hp]; rfl)
    obtain ⟨-, -, rfl⟩ := Device.submit_eq_ok hsubmit
    refine nothing (by simp [hp]) (.trans ?_ (sameBooks_look hlaid (hl.census.known_of_game hg) ?_))
    · exact .setDevice rfl rfl
    · rw [Hub.client_setDevice, hp]
      rfl
  | @look t hp =>
    have hx := hknown (by rw [hp]; rfl)
    refine nothing (by simp [hp]) ?_
    exact .look hx (hl.census.home x hx) (hl.tickets.nodup_published _) (by rw [hp]; rfl)
  | @run t batch hub' hp hrun =>
    have hx := hknown (by rw [hp]; rfl)
    obtain ⟨hlaid, hsize, -⟩ := Ledger.publish hl hp hrun
    have hframe : Hub.Frame (fun _ => False) c.hub hub' := .runBatch hrun
    have hhand : (hub'.client x).phase.inHand = 0 := by
      rw [← Phase.inHand_stirred, ← Client.stirred_phase, hframe.others x id, Client.stirred_phase,
        hp]
      rfl
    have hlook := sameBooks_look hlaid (hsize ▸ hx) hhand
    obtain ⟨run, hran, rfl⟩ := Hub.runBatch_eq_ok hrun
    refine .batch (by simp [Hub.batchOf?, hp]) (hl.census.home x hx) (fun r hr => ?_) hran
      (.trans (.wake _ _) hlook)
    refine hl.positions_ne_nil h (.inr (.inl ⟨x, rfl, ?_⟩))
    rw [hp]
    exact hr
  | rejoin hp hrejoin =>
    obtain ⟨-, rfl⟩ := Device.rejoin_eq_ok hrejoin
    refine nothing (by simp [hp]) (.trans ?_ (.setPhase ?_))
    · exact .setDevice rfl rfl
    · rw [Hub.client_setDevice, hp]
      rfl
  | opening hp =>
    obtain ⟨-, ho⟩ := hl.census.exists_opens hp
    refine nothing (by simp [hp]) (.trans (.register _ _) (.enter ?_ ?_))
    · rw [Hub.client_register, hp]
      rfl
    · rw [Hub.client_register, ho.held]
      rfl
  | closing hp hun =>
    obtain ⟨-, ho⟩ := hl.census.exists_closes hp
    refine nothing (by simp [hp]) (.trans (.unregister hun) (.exit ?_ ?_))
    · exact Hub.SameBooks.not_underway_of_unregister hun (by rw [hp]; rfl)
    · exact Hub.SameBooks.not_underway_of_unregister hun (by rw [ho.held]; rfl)
  | rest hp =>
    refine nothing (fun t batch he => ?_) (.refl _)
    rw [he] at hp
    simp at hp

theorem effect_collect (ok : c.hub.act (.collect x) = .ok hub) : c.Effect (.collect x) hub := by
  unfold Hub.act at ok
  cases hcollect : c.hub.collect? x with
  | none =>
    simp only [hcollect] at ok
    cases ok
    refine .nothing rfl (fun y hy => ?_) (.refl _)
    cases hy
    exact hcollect
  | some collected =>
    simp only [hcollect] at ok
    unfold Hub.collect? at hcollect
    split at hcollect
    · cases hcollect
      cases ok
      exact .answer ‹_›
    · cases hcollect

theorem Kept.effect_runFlush (hl : c.Kept) (h : c.Earnest) {k : Nat}
    (ok : c.hub.runFlush k = .ok hub) : c.Effect (.runFlush k) hub := by
  unfold Hub.runFlush at ok
  cases hflush : c.hub.flushes[k]? with
  | none =>
    rw [hflush] at ok
    cases ok
    exact .nothing hflush (fun y hy => by cases hy) (.refl _)
  | some f =>
    obtain ⟨i, batch⟩ := f
    rw [hflush] at ok
    have hmem : (i, batch) ∈ c.hub.flushes := List.mem_of_getElem? hflush
    obtain ⟨run, hrun, rfl⟩ := Hub.runBatch_eq_ok ok
    refine .batch hflush (hl.routed.flushed _ hmem) (fun r hr => ?_) hrun (.trans ?_ (.wake _ i))
    · exact hl.positions_ne_nil h (.inr (.inr ⟨batch, hmem, hr⟩))
    · exact ⟨fun _ => rfl, fun _ => rfl, rfl⟩

/-- Every event that is allowed runs a batch, hands out an answer, or leaves the books as they
are. -/
theorem Kept.effect (hl : c.Kept) (h : c.Earnest) (allowed : c.Allows (.event e))
    (ok : c.hub.act e = .ok hub) : c.Effect e hub := by
  have hidle : ∀ {x}, (c.hub.client x).phase = .idle → (c.hub.client x).phase.isUnderway = false :=
    fun hp => by rw [hp]; rfl
  cases e with
  | startGame a b =>
    obtain ⟨-, -, -, hfa, hfb⟩ := allowed
    have ha := (hl.census.free a (Census.not_mem_members hfa)).1
    have hb := (hl.census.free b (Census.not_mem_members hfb)).1
    exact .nothing rfl (fun y hy => by cases hy) (.startGame (hidle ha) (hidle hb) ok)
  | endGame a b =>
    obtain ⟨-, ha, hb⟩ := allowed
    exact .nothing rfl (fun y hy => by cases hy) (.endGame (hidle ha) (hidle hb) ok)
  | request x positions =>
    obtain ⟨y, -, hrest, -⟩ := allowed
    obtain rfl := Hub.act_request_eq_ok ok
    refine .nothing rfl (fun y hy => by cases hy) (.setPhase ?_)
    rw [Hub.inHand_afterAsking, show (c.hub.client x).phase = _ from hrest]
    rfl
  | proceed x => exact hl.effect_proceed h ok
  | collect x => exact effect_collect ok
  | flush i =>
    cases ok
    exact .nothing rfl (fun y hy => by cases hy) (.flush _ i)
  | runFlush k => exact hl.effect_runFlush h ok
  | stir x =>
    cases ok
    refine .nothing rfl (fun y hy => by cases hy) (.changeClient ?_ ?_)
    · exact Client.rouse_device _ _
    · exact Client.inHand_rouse _ _

end Course

end Goban
