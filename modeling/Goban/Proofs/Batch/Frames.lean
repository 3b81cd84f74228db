import Goban.Proofs.Batch.Ledger

/-!
# What an event leaves alone

An event concerns one client, or the two clients of a game (`Event.Concerns`). All others stay as
they are, but that they may be woken, and all clients and devices stay where and what they are
(`Hub.act_frame`). So a client runs a batch after an event only if it ran it before, or if it has
just taken what was pending (`Hub.running_of_act`).
-/

namespace Goban

namespace Phase

variable {p : Phase} {t : Nat} {batch : List Request}

theorem stirred_eq_running_iff : p.stirred = .running t batch ↔ p = .running t batch := by
  cases p <;> simp [stirred]

end Phase

/-- Whether a client is one of those whom an event is about. -/
def Event.Concerns (h : Hub) (e : Event) (x : Nat) : Prop :=
  match e with
  | .startGame a b | .endGame a b => x = a ∨ x = b
  | .request y _ | .collect y | .stir y => x = y
  | .proceed y => x = y ∨ (h.client y).phase = .opening x ∨ (h.client y).phase = .closing x
  | .flush _ | .runFlush _ => False

namespace Hub

variable {h h' h'' : Hub} {who : Nat → Prop} {a b i t x y : Nat} {batch : List Request}

/-- Only some clients change, and these, like the devices, stay what they are. A batch that is taken
from outside is not empty. -/
structure Frame (who : Nat → Prop) (h h' : Hub) : Prop extends Extends h h' where
  buffers : ∀ i, (h'.device i).buffers = (h.device i).buffers
  others : ∀ y, ¬ who y → (h'.client y).stirred = (h.client y).stirred
  flushes : ∀ f ∈ h'.flushes, f ∈ h.flushes ∨ f.2 ≠ []

namespace Frame

theorem refl (who : Nat → Prop) (h : Hub) : Frame who h h where
  size := rfl
  devices := rfl
  client _ := ⟨rfl, rfl⟩
  device _ := ⟨List.prefix_rfl, rfl⟩
  journal := List.Subset.refl _
  buffers _ := rfl
  others _ _ := rfl
  flushes _ hf := .inl hf

theorem trans (hf : Frame who h h') (hg : Frame who h' h'') : Frame who h h'' where
  toExtends := hf.toExtends.trans hg.toExtends
  buffers i := (hg.buffers i).trans (hf.buffers i)
  others y hy := (hg.others y hy).trans (hf.others y hy)
  flushes f hmem := (hg.flushes f hmem).elim (hf.flushes f) .inr

/-- A device may change in everything but what it is. -/
theorem setDevice {d : Device} (models : (h.device i).models <+: d.models)
    (name : d.name = (h.device i).name) (buffers : d.buffers = (h.device i).buffers) :
    Frame who h (h.setDevice i d) where
  toExtends := .setDevice models name
  buffers j := by
    rcases device_setDevice_cases h i j d with hd | ⟨rfl, -, hd⟩
    · rw [hd]
    · rw [hd, buffers]
  others _ _ := rfl
  flushes _ hf := .inl hf

theorem changeClient {f : Client → Client} (hx : who x)
    (same : ∀ c, (f c).device = c.device ∧ (f c).key = c.key) :
    Frame who h (h.changeClient x f) where
  toExtends := .changeClient (same _)
  buffers _ := rfl
  others y hy := by rw [client_changeClient_ne h x y f fun hyx => hy (hyx ▸ hx)]
  flushes _ hf := .inl hf

theorem setPhase (hx : who x) (p : Phase) : Frame who h (h.setPhase x p) :=
  changeClient hx fun _ => ⟨rfl, rfl⟩

theorem wake (h : Hub) (i : Nat) : Frame who h (h.wake i) where
  toExtends := .wake h i
  buffers _ := rfl
  others y _ := by rw [client_wake, Client.stirred_rouse]
  flushes _ hf := .inl hf

theorem measure (h : Hub) (ms : List Measurement) : Frame who h (h.measure ms) where
  toExtends := .measure h ms
  buffers _ := rfl
  others _ _ := rfl
  flushes _ hf := .inl hf

/-! ## What is done with the lock of a device -/

theorem look (hx : who x) (h : Hub) (t : Nat) : Frame who h (h.look x t) := by
  rcases h.look_cases x t with ⟨answer, d, hcollect, hlook⟩ | ⟨-, -, hlook⟩ | ⟨-, -, hlook⟩
  · obtain ⟨-, hd⟩ := Device.collect?_eq_some hcollect
    rw [hlook, hd]
    refine trans ?_ (setPhase hx _)
    exact setDevice List.prefix_rfl rfl rfl
  · rw [hlook]
    refine trans ?_ (setPhase hx _)
    exact setDevice List.prefix_rfl rfl rfl
  · rw [hlook]
    exact setPhase hx _

theorem runBatch (hok : h.runBatch i batch = .ok h') : Frame who h h' := by
  obtain ⟨run, -, rfl⟩ := runBatch_eq_ok hok
  refine trans (trans (measure h (callsOf (h.device i).name run)) ?_) (wake _ i)
  exact setDevice List.prefix_rfl rfl rfl

theorem register (h : Hub) (i : Nat) : Frame who h (h.register i) := by
  obtain ⟨ms, he⟩ := h.register_eq i
  rw [he]
  refine trans ?_ (measure _ ms)
  exact setDevice List.prefix_rfl rfl rfl

theorem unregister (hok : h.unregister i = .ok h') : Frame who h h' := by
  obtain ⟨d, ms, hd, rfl⟩ := unregister_eq_ok hok
  obtain ⟨-, rfl⟩ := Device.unregister_eq_ok hd
  refine trans (trans ?_ (measure _ ms)) (wake _ i)
  exact setDevice List.prefix_rfl rfl rfl

theorem enter (ha : who a) (hb : who b) (h : Hub) : Frame who h (h.enter a b) := by
  obtain ⟨f, g, he, hf⟩ := h.enter_eq a b
  rw [he]
  exact (changeClient ha fun c => ⟨(hf c).1.1, (hf c).1.2.1⟩).trans
    (changeClient hb fun c => ⟨(hf c).2.1, (hf c).2.2.1⟩)

theorem exit (ha : who a) (hb : who b) (h : Hub) : Frame who h (h.exit a b) := by
  obtain ⟨f, g, he, hf⟩ := h.exit_eq a b
  rw [he]
  exact (changeClient ha fun c => ⟨(hf c).1.1, (hf c).1.2.1⟩).trans
    (changeClient hb fun c => ⟨(hf c).2.1, (hf c).2.2.1⟩)

/-! ## Events -/

theorem startGame (ha : who a) (hb : who b) (hok : h.startGame a b = .ok h') : Frame who h h' := by
  rcases startGame_eq_ok hok with ⟨-, rfl⟩ | ⟨-, rfl⟩
  · exact (register h _).trans (enter ha hb _)
  · exact ((register h _).trans (setPhase ha _)).trans (setPhase hb _)

theorem endGame (ha : who a) (hb : who b) (hok : h.endGame a b = .ok h') : Frame who h h' := by
  obtain ⟨hub, hun, hcases⟩ := endGame_eq_ok hok
  rcases hcases with ⟨-, rfl⟩ | ⟨-, rfl⟩
  · exact (unregister hun).trans (exit ha hb _)
  · exact ((unregister hun).trans (setPhase ha _)).trans (setPhase hb _)

theorem proceed (hx : who x) (hpartner : ∀ y, (h.client x).phase = .opening y ∨
    (h.client x).phase = .closing y → who y) (hok : h.proceed x = .ok h') : Frame who h h' := by
  cases proceed_eq_ok hok with
  | leave _ hleave =>
    obtain rfl := Device.leave_eq_ok hleave
    refine trans (trans ?_ (wake _ _)) (setPhase hx _)
    exact setDevice List.prefix_rfl rfl rfl
  | submit _ hsubmit =>
    obtain ⟨-, -, rfl⟩ := Device.submit_eq_ok hsubmit
    refine trans ?_ (look hx _ _)
    exact setDevice List.prefix_rfl rfl rfl
  | look _ => exact look hx _ _
  | run _ hrun => exact (runBatch hrun).trans (look hx _ _)
  | rejoin _ hrejoin =>
    obtain ⟨-, rfl⟩ := Device.rejoin_eq_ok hrejoin
    refine trans ?_ (setPhase hx _)
    exact setDevice List.prefix_rfl rfl rfl
  | opening hp => exact (register h _).trans (enter hx (hpartner _ (.inl hp)) _)
  | closing hp hun => exact (unregister hun).trans (exit hx (hpartner _ (.inr hp)) _)
  | rest _ => exact refl who h

theorem flush (h : Hub) (i : Nat) : Frame who h (h.flush i) := by
  unfold Hub.flush
  simp only
  split
  · exact refl who h
  · rename_i hne
    have hset : Frame who h (h.setDevice i (h.device i).taken) :=
      setDevice List.prefix_rfl rfl rfl
    refine ⟨⟨hset.size, hset.devices, hset.client, hset.device, hset.journal⟩, hset.buffers,
      hset.others, ?_⟩
    intro f hf
    rcases List.mem_append.mp hf with hf | hf
    · exact .inl hf
    · right
      rw [List.mem_singleton.mp hf]
      exact fun hnil => hne (List.isEmpty_iff.mpr hnil)

theorem runFlush {k : Nat} (hok : h.runFlush k = .ok h') : Frame who h h' := by
  unfold Hub.runFlush at hok
  split at hok
  · cases hok
    exact refl who h
  · have hrun : Frame who _ h' := runBatch hok
    refine ⟨⟨hrun.size, hrun.devices, hrun.client, hrun.device, hrun.journal⟩, hrun.buffers,
      hrun.others, ?_⟩
    intro f hf
    exact (hrun.flushes f hf).imp_left fun hmem => (List.eraseIdx_sublist _ k).subset hmem

end Frame

theorem act_frame {e : Event} (hok : h.act e = .ok h') : Frame (e.Concerns h) h h' := by
  cases e with
  | startGame a b => exact .startGame (.inl rfl) (.inr rfl) hok
  | endGame a b => exact .endGame (.inl rfl) (.inr rfl) hok
  | request x positions =>
    obtain rfl := act_request_eq_ok hok
    apply Frame.setPhase
    rfl
  | proceed x => exact .proceed (.inl rfl) (fun _ hp => .inr hp) hok
  | collect x =>
    rcases act_collect_eq_ok hok with rfl | ⟨answer, -, rfl⟩
    · exact .refl _ h'
    · apply Frame.setPhase
      rfl
  | flush i =>
    cases hok
    exact .flush h i
  | runFlush k => exact .runFlush hok
  | stir x =>
    cases hok
    apply Frame.changeClient
    · rfl
    · exact fun c => ⟨Client.rouse_device c _, Client.rouse_key c _⟩

/-- A load adds a model at most. -/
theorem Extends.load (h : Hub) (i : Nat) (loader : Loader) (path : String) :
    h.Extends (h.load i loader path) := by
  rcases h.load_eq i loader path with he | ⟨models, hmodels, he⟩
  · rw [he]
    exact (Frame.refl (fun _ => True) h).toExtends
  · rw [he]
    exact .setDevice hmodels rfl

/-! ## Taking a batch -/

theorem running_of_look {s : Nat} (hi : (h.client x).device < h.devices.size)
    (hp : ((h.look x s).client x).phase = .running t batch) : ∃ d : Device, d.isReady = true ∧
      d.pending = batch ∧ (h.look x s).device (h.client x).device = d.taken := by
  have hx : x < h.clients.size := by
    have hf : Frame (fun _ => True) h (h.look x s) := .look trivial h s
    rw [← hf.size]
    exact lt_size_of_ne_idle (by rw [hp]; exact nofun)
  rcases h.look_cases x s with ⟨answer, d, -, hlook⟩ | ⟨-, hready, hlook⟩ | ⟨-, -, hlook⟩
  · rw [hlook, phase_setPhase (h := h.setDevice _ _) hx] at hp
    unfold afterCollecting at hp
    split at hp <;> cases hp
  · rw [hlook, phase_setPhase (h := h.setDevice _ _) hx] at hp
    cases hp
    refine ⟨_, hready, rfl, ?_⟩
    rw [hlook]
    exact device_setDevice_self _ hi
  · rw [hlook, phase_setPhase hx] at hp
    cases hp

/-- Two clients that change have nothing under way, if the change leaves them nothing. -/
theorem not_underway_of_pair {f g : Client → Client}
    (hf : ∀ c, (f c).phase.isUnderway = false) (hg : ∀ c, (g c).phase.isUnderway = false)
    (hx : x = a ∨ x = b) :
    (((h.changeClient a f).changeClient b g).client x).phase.isUnderway = false := by
  by_cases hsize : x < h.clients.size
  · rcases client_changeClient_cases (h.changeClient a f) b x g with hc | ⟨-, -, hc⟩
    · rw [hc]
      by_cases hxa : x = a
      · subst hxa
        rw [client_changeClient_self f hsize]
        exact hf _
      · obtain rfl := hx.resolve_left hxa
        rw [client_changeClient_self g (by simpa using hsize)] at hc
        rw [← hc]
        exact hg _
    · rw [hc]
      exact hg _
  · rw [client_of_le (by simpa using hsize)]
    rfl

theorem not_underway_of_enter (h : Hub) (hx : x = a ∨ x = b) :
    ((h.enter a b).client x).phase.isUnderway = false := by
  obtain ⟨f, g, he, hf⟩ := h.enter_eq a b
  rw [he]
  refine not_underway_of_pair (fun c => ?_) (fun c => ?_) hx
  · rw [(hf c).1.2.2]
    rfl
  · rw [(hf c).2.2.2]
    rfl

theorem not_underway_of_exit (h : Hub) (hx : x = a ∨ x = b) :
    ((h.exit a b).client x).phase.isUnderway = false :=
  not_underway_of_pair (fun _ => rfl) (fun _ => rfl) hx

/-- A client that proceeds to run a batch has just taken it from the queue of its device. -/
theorem running_of_proceed (hi : (h.client x).device < h.devices.size) (hok : h.proceed x = .ok h')
    (hp : (h'.client x).phase = .running t batch) : ∃ d : Device, d.isReady = true ∧
      d.pending = batch ∧ h'.device (h.client x).device = d.taken := by
  have hx : x < h'.clients.size := lt_size_of_ne_idle (by rw [hp]; exact nofun)
  have hframe : Frame (fun _ => True) h h' := .proceed trivial (fun _ _ => trivial) hok
  rw [hframe.size] at hx
  cases proceed_eq_ok hok with
  | leave hbefore _ =>
    rw [phase_setPhase (h := wake _ _) (by simpa using hx)] at hp
    cases hp
  | submit hbefore _ => exact running_of_look (by simpa using hi) hp
  | look hbefore => exact running_of_look hi hp
  | run hbefore hrun =>
    have hf : Frame (fun _ => True) h _ := .runBatch hrun
    rw [← (hf.client x).1]
    exact running_of_look (by rw [(hf.client x).1, hf.devices]; exact hi) hp
  | rejoin hbefore _ =>
    rw [phase_setPhase (h := setDevice _ _ _) hx] at hp
    cases hp
  | @opening y hbefore =>
    have hnone := not_underway_of_enter (a := x) (b := y) (h.register (h.client y).device) (.inl rfl)
    rw [hp] at hnone
    cases hnone
  | @closing y hub hbefore hun =>
    have hnone := not_underway_of_exit (a := x) (b := y) hub (.inl rfl)
    rw [hp] at hnone
    cases hnone
  | rest hbefore =>
    rw [hp] at hbefore
    simp at hbefore

theorem proceed_of_opening (hp : (h.client x).phase = .opening y) (hok : h.proceed x = .ok h') :
    h' = (h.register (h.client y).device).enter x y := by
  unfold proceed at hok
  simp only [hp] at hok
  exact (Except.ok.inj hok).symm

theorem proceed_of_closing (hp : (h.client x).phase = .closing y) (hok : h.proceed x = .ok h') :
    ∃ hub, h.unregister (h.client y).device = .ok hub ∧ h' = hub.exit x y := by
  unfold proceed at hok
  simp only [hp] at hok
  obtain ⟨hub, hun, hok⟩ := bind_eq_ok hok
  exact ⟨hub, hun, (Except.ok.inj hok).symm⟩

/-- A client that changes is in the new phase, unless it is unknown. -/
theorem setPhase_cases (h : Hub) (x : Nat) (p : Phase) :
    (h.setPhase x p).client x = h.client x ∨ ((h.setPhase x p).client x).phase = p := by
  rcases client_changeClient_cases h x x ({ · with phase := p }) with hc | ⟨-, -, hc⟩
  · exact .inl hc
  · right
    rw [setPhase, hc]

/-- A client that others bring into or out of a game, or that begins or ends a request, has nothing
to run. -/
theorem stirred_or_batch_of_act {e : Event} (hok : h.act e = .ok h') (hother : e ≠ .proceed x) :
    (h'.client x).stirred = (h.client x).stirred ∨ (h'.client x).phase.isUnderway = false ∨
      ∃ positions, e = .request x positions ∧
        (h'.client x).phase = afterAsking (h.client x) positions := by
  by_cases hx : e.Concerns h x
  swap
  · exact .inl ((act_frame hok).others x hx)
  cases e with
  | startGame a b =>
    refine .inr (.inl ?_)
    rcases startGame_eq_ok hok with ⟨-, rfl⟩ | ⟨-, rfl⟩
    · exact not_underway_of_enter _ hx
    · exact not_underway_of_pair (fun _ => rfl) (fun _ => rfl) hx
  | endGame a b =>
    refine .inr (.inl ?_)
    obtain ⟨hub, -, ⟨-, rfl⟩ | ⟨-, rfl⟩⟩ := endGame_eq_ok hok
    · exact not_underway_of_exit hub hx
    · exact not_underway_of_pair (fun _ => rfl) (fun _ => rfl) hx
  | request y positions =>
    obtain rfl : x = y := hx
    obtain rfl := act_request_eq_ok hok
    rcases h.setPhase_cases x (afterAsking (h.client x) positions) with hc | hp
    · exact .inl (by rw [hc])
    · exact .inr (.inr ⟨positions, rfl, hp⟩)
  | proceed y =>
    rcases hx with rfl | hp | hp
    · exact absurd rfl hother
    · rw [proceed_of_opening hp hok]
      exact .inr (.inl (not_underway_of_enter _ (.inr rfl)))
    · obtain ⟨hub, -, rfl⟩ := proceed_of_closing hp hok
      exact .inr (.inl (not_underway_of_exit hub (.inr rfl)))
  | collect y =>
    obtain rfl : x = y := hx
    rcases act_collect_eq_ok hok with rfl | ⟨answer, -, rfl⟩
    · exact .inl rfl
    · rcases h.setPhase_cases x .idle with hc | hp
      · exact .inl (by rw [hc])
      · exact .inr (.inl (by rw [hp]; rfl))
  | flush i => cases hx
  | runFlush k => cases hx
  | stir y =>
    obtain rfl : x = y := hx
    cases hok
    left
    rcases client_changeClient_cases h x x (fun c => c.rouse c.device) with hc | ⟨-, -, hc⟩
    · rw [stir, hc]
    · rw [stir, hc, Client.stirred_rouse]

/-- A client that runs a batch after an event ran it before, or it proceeded and took it. -/
theorem running_of_act {e : Event} (hok : h.act e = .ok h')
    (hp : (h'.client x).phase = .running t batch) :
    (h.client x).phase = .running t batch ∨ e = .proceed x := by
  by_cases hother : e = .proceed x
  · exact .inr hother
  left
  rcases stirred_or_batch_of_act hok hother with hs | hnone | ⟨positions, -, hasked⟩
  · rw [← Phase.stirred_eq_running_iff, ← Client.stirred_phase, ← hs, Client.stirred_phase, hp]
    rfl
  · rw [hp] at hnone
    cases hnone
  · rw [hp] at hasked
    unfold afterAsking at hasked
    split at hasked
    · cases hasked
    · split at hasked <;> cases hasked

end Hub

/-! ## Courses -/

namespace Course

variable {c c' : Course} {a : Act} {i t x : Nat} {batch : List Request}

theorem running_of_after (ok : c.after a = .ok c')
    (hp : (c'.hub.client x).phase = .running t batch) :
    (c.hub.client x).phase = .running t batch ∨ a = .event (.proceed x) := by
  cases a with
  | load i loader path =>
    cases ok
    left
    rcases c.hub.load_eq i loader path with he | ⟨models, -, he⟩
    · rwa [he] at hp
    · rwa [he] at hp
  | addClient i key =>
    obtain ⟨y, hub, hadd, rfl⟩ := after_addClient_eq_ok ok
    obtain ⟨-, name, rfl⟩ := Hub.addClient_eq_ok hadd
    rw [Hub.client_push] at hp
    split at hp
    · cases hp
    · exact .inl hp
  | event e =>
    obtain ⟨hub, hact, rfl⟩ := after_event_eq_ok ok
    exact (Hub.running_of_act hact hp).imp_right fun he => by rw [he]

theorem home_after (ok : c.after a = .ok c') (hx : x < c.hub.clients.size) :
    (c'.hub.client x).device = (c.hub.client x).device := by
  cases a with
  | load i loader path =>
    cases ok
    rcases c.hub.load_eq i loader path with he | ⟨models, -, he⟩
    · rw [he]
    · rw [he, Hub.client_setDevice]
  | addClient i key =>
    obtain ⟨y, hub, hadd, rfl⟩ := after_addClient_eq_ok ok
    obtain ⟨-, name, rfl⟩ := Hub.addClient_eq_ok hadd
    rw [Hub.client_push, if_neg (Nat.ne_of_lt hx)]
  | event e =>
    obtain ⟨hub, hact, rfl⟩ := after_event_eq_ok ok
    exact ((Hub.act_frame hact).client x).1

theorem buffers_after (ok : c.after a = .ok c') (i : Nat) :
    (c'.hub.device i).buffers = (c.hub.device i).buffers := by
  cases a with
  | load j loader path =>
    cases ok
    rcases c.hub.load_eq j loader path with he | ⟨models, hmodels, he⟩
    · rw [he]
    · have hf : Hub.Frame (fun _ => True) c.hub _ :=
        .setDevice (d := { c.hub.device j with models }) hmodels rfl rfl
      rw [he, hf.buffers]
  | addClient j key =>
    obtain ⟨y, hub, hadd, rfl⟩ := after_addClient_eq_ok ok
    obtain ⟨-, name, rfl⟩ := Hub.addClient_eq_ok hadd
    rfl
  | event e =>
    obtain ⟨hub, hact, rfl⟩ := after_event_eq_ok ok
    exact (Hub.act_frame hact).buffers i

theorem flushes_of_after (ok : c.after a = .ok c') :
    ∀ f ∈ c'.hub.flushes, f ∈ c.hub.flushes ∨ f.2 ≠ [] := by
  cases a with
  | load j loader path =>
    cases ok
    rcases c.hub.load_eq j loader path with he | ⟨models, -, he⟩
    · rw [he]
      exact fun f hf => .inl hf
    · rw [he]
      exact fun f hf => .inl hf
  | addClient j key =>
    obtain ⟨y, hub, hadd, rfl⟩ := after_addClient_eq_ok ok
    obtain ⟨-, name, rfl⟩ := Hub.addClient_eq_ok hadd
    exact fun f hf => .inl hf
  | event e =>
    obtain ⟨hub, hact, rfl⟩ := after_event_eq_ok ok
    exact (Hub.act_frame hact).flushes

/-- In every course a client that proceeds to run a batch has just taken it. -/
theorem Kept.taken_of_proceed (hl : c.Kept) (ok : c.after (.event (.proceed x)) = .ok c')
    (hp : (c'.hub.client x).phase = .running t batch) : ∃ d : Device, d.isReady = true ∧
      d.pending = batch ∧ c'.hub.device (c'.hub.client x).device = d.taken := by
  obtain ⟨hub, hact, rfl⟩ := after_event_eq_ok ok
  have hframe := Hub.act_frame hact
  have hx : x < c.hub.clients.size := by
    rw [← hframe.size]
    exact Tickets.known_of_ticket? (by rw [show (hub.client x).phase = _ from hp]; rfl)
  show ∃ d : Device, _ ∧ _ ∧ hub.device (hub.client x).device = _
  rw [(hframe.client x).1]
  exact Hub.running_of_proceed (hl.census.home x hx) hact hp

/-- Every device has a buffer. -/
theorem Reachable.buffers_pos (hc : c.Reachable) (i : Nat) : 0 < (c.hub.device i).buffers := by
  refine hc.induction (P := fun c => 0 < (c.hub.device i).buffers) (fun devices hnew => ?_)
    fun _ _ _ h _ ok => buffers_after ok i ▸ h
  by_cases hi : i < devices.length
  · obtain ⟨name, buffers, hd⟩ := hnew devices[i] (List.getElem_mem hi)
    unfold Device.new at hd
    split at hd
    · cases hd
    · have hdevice : (start devices).hub.device i = devices[i] := by
        simp [start, Hub.new, Hub.device, hi]
      rw [hdevice, ← Except.ok.inj hd]
      exact Nat.pos_of_ne_zero ‹_›
  · rw [Hub.device_of_le (by simpa [start, Hub.new] using hi)]
    exact Nat.one_pos

/-- No batch is empty. -/
structure Filled (c : Course) : Prop where
  running : ∀ x t batch, (c.hub.client x).phase = .running t batch → batch ≠ []
  flushes : ∀ f ∈ c.hub.flushes, f.2 ≠ []

theorem Filled.after (hf : c.Filled) (hl : c.Kept) (ok : c.after a = .ok c') : c'.Filled where
  running x t batch hp := by
    rcases running_of_after ok hp with hold | rfl
    · exact hf.running x t batch hold
    · obtain ⟨d, hready, rfl, -⟩ := hl.taken_of_proceed ok hp
      intro hnil
      unfold Device.isReady at hready
      rw [hnil] at hready
      cases hready
  flushes f hmem := (flushes_of_after ok f hmem).elim (hf.flushes f) id

theorem Reachable.filled (hc : c.Reachable) : c.Filled := by
  have hboth : c.Kept ∧ c.Filled := by
    refine hc.induction (P := fun c => c.Kept ∧ c.Filled) (fun devices hnew => ⟨kept_start hnew, ?_⟩)
      fun _ _ _ h allowed ok => ⟨h.1.after allowed ok, h.2.after h.1 ok⟩
    refine ⟨fun x t batch hp => ?_, fun f hf => ?_⟩
    · cases hp
    · cases hf
  exact hboth.2

end Course

end Goban
