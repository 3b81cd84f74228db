import Goban.Proofs.Batch.Delivery
import Goban.Proofs.Batch.Frames

/-!
# A key stands for one file for ever

Whatever is done in a course, models stay where they are on their devices, and clients keep their
models (`Hub.Retains`). So the key that a load gave stands for its file and its model from then on
(`Course.Names`): the file is given no other key and is not loaded again, no other file is given this
one, and what a client of the key collects was said by this model
(`Course.Reachable.keys_identify`).
-/

namespace Goban

namespace Hub

variable {h h' h'' : Hub}

/-- Models and clients that were there are still there. -/
structure Retains (h h' : Hub) : Prop where
  device : ∀ i, (h.device i).models <+: (h'.device i).models
  client : ∀ x < h.clients.size, x < h'.clients.size ∧
    (h'.client x).device = (h.client x).device ∧ (h'.client x).key = (h.client x).key

namespace Retains

theorem refl (h : Hub) : h.Retains h := ⟨fun _ => List.prefix_rfl, fun _ hx => ⟨hx, rfl, rfl⟩⟩

theorem trans (hr : h.Retains h') (hr' : h'.Retains h'') : h.Retains h'' where
  device i := (hr.device i).trans (hr'.device i)
  client x hx := by
    obtain ⟨hx', hdevice, hkey⟩ := hr.client x hx
    obtain ⟨hx'', hdevice', hkey'⟩ := hr'.client x hx'
    exact ⟨hx'', hdevice'.trans hdevice, hkey'.trans hkey⟩

theorem of_extends (he : h.Extends h') : h.Retains h' where
  device i := (he.device i).1
  client x hx := ⟨he.size ▸ hx, he.client x⟩

theorem addClient {i x : Nat} {key : ModelKey} (hadd : h.addClient i key = .ok (x, h')) :
    h.Retains h' := by
  obtain ⟨-, name, rfl⟩ := addClient_eq_ok hadd
  refine ⟨fun _ => List.prefix_rfl, fun y hy => ?_⟩
  rw [client_push, if_neg (Nat.ne_of_lt hy), Array.size_push]
  exact ⟨Nat.lt_succ_of_lt hy, rfl, rfl⟩

end Retains

end Hub

namespace Course

variable {c c' : Course} {acts : List Act} {a : Act} {i x : Nat} {key : ModelKey}
  {loaded : LoadedModel} {path : String}

theorem retains_after (ok : c.after a = .ok c') : c.hub.Retains c'.hub := by
  cases a with
  | load i loader path =>
    cases ok
    exact .of_extends (.load _ _ _ _)
  | addClient i key =>
    obtain ⟨x, hub, hadd, rfl⟩ := after_addClient_eq_ok ok
    exact .addClient hadd
  | event e =>
    obtain ⟨hub, hact, rfl⟩ := after_event_eq_ok ok
    exact .of_extends (Hub.act_frame hact).toExtends

theorem Run.retains (hrun : Run c acts c') : c.hub.Retains c'.hub := by
  induction hrun with
  | rest => exact .refl _
  | act _ _ ok ih => exact ih.trans (retains_after ok)

theorem Run.reachable (hrun : Run c acts c') (hc : c.Reachable) : c'.Reachable := by
  induction hrun with
  | rest => exact hc
  | act _ allowed ok ih => exact ih.act allowed ok

/-- A key of a device stands for a model and the file that it was loaded from. -/
structure Names (c : Course) (i : Nat) (key : ModelKey) (loaded : LoadedModel) : Prop where
  model : (c.hub.device i).models[key]? = some loaded
  name : (c.hub.device i).modelName? key = some loaded.model.name
  /-- A load of the file gives the key and does nothing else, whatever a call of the loader does. -/
  again : ∀ {m : Type → Type} [Monad m] (call : String → String → m (Except String Model)),
    (c.hub.device i).loadWith call loaded.path = pure (.ok (key, c.hub.device i))
  /-- A load gives this key for this file only. -/
  apart : ∀ loader path key' d, (c.hub.device i).load loader path = .ok (key', d) →
    (key' = key ↔ path = loaded.path)

theorem names_of_keyOf? (hmodel : (c.hub.device i).models[key]? = some loaded)
    (hkey : (c.hub.device i).keyOf? loaded.path = some key) : c.Names i key loaded where
  model := hmodel
  name := by rw [Device.modelName?, hmodel, Option.map_some]
  again call := by rw [Device.loadWith, hkey]
  apart loader path key' d ok := by
    have hkey' := Device.keyOf?_of_load ok
    have hkey := Device.keyOf?_of_prefix (Device.prefix_of_load ok) hkey
    constructor
    · rintro rfl
      exact Device.keyOf?_inj hkey hkey'
    · rintro rfl
      exact Option.some.inj (hkey'.symm.trans hkey)

/-- What a client of the key collects was said by its model about its request. -/
theorem Reachable.answers_of_key (hc : c.Reachable)
    (hmodel : (c.hub.device i).models[key]? = some loaded) (hdevice : (c.hub.client x).device = i)
    (hkey : (c.hub.client x).key = key) {answer : List Evaluation} {hub : Hub}
    (hcollect : c.hub.collect? x = some (answer, hub)) : (c.asked x = [] ∧ answer = []) ∨
      ∃ call : List Request,
        .call (c.hub.device i).name loaded.path (call.flatMap (·.positions)) ∈ c.hub.journal ∧
          loaded.model.Says call (c.lastRequest x) answer := by
  obtain ⟨log, hlog⟩ := Chronicle.exists_of_reachable hc
  rcases hlog.receipts.inHand x answer (answer?_of_collect? hcollect) with
    ⟨call, -, hhome, hsame, said, hsaid, hcall, hanswer⟩ | hnothing
  · subst hdevice hkey
    rw [hhome, ← hsame] at hsaid
    rw [hhome] at hcall
    obtain rfl : said = loaded := Option.some.inj (hsaid.symm.trans hmodel)
    exact .inr ⟨call.requests, hcall, hanswer⟩
  · exact .inl hnothing

/-- A client of the key that is added now is named after the model. Whatever it collects at any later
time was said by the model about its request. -/
def Serves (c : Course) (i : Nat) (key : ModelKey) (loaded : LoadedModel) : Prop :=
  ∃ x hub, c.hub.addClient i key = .ok (x, hub) ∧ (hub.client x).name = loaded.model.name ∧
    ∀ acts c', Run { c with hub } acts c' → ∀ answer hub', c'.hub.collect? x = some (answer, hub') →
      (c'.asked x = [] ∧ answer = []) ∨
        ∃ call : List Request,
          .call (c'.hub.device i).name loaded.path (call.flatMap (·.positions)) ∈ c'.hub.journal ∧
            loaded.model.Says call (c'.lastRequest x) answer

theorem Names.serves (h : c.Names i key loaded) (hc : c.Reachable) : c.Serves i key loaded := by
  let client : Client := ⟨i, key, loaded.model.name, false, none, .idle⟩
  let hub : Hub := { c.hub with clients := c.hub.clients.push client }
  have hadd : c.hub.addClient i key = .ok (c.hub.clients.size, hub) := by
    rw [Hub.addClient, h.name]
  have hnew : hub.client c.hub.clients.size = client := by
    rw [Hub.client_push, if_pos rfl]
  obtain ⟨-, hallowed, hafter, hsize⟩ := after_addClient hadd
  refine ⟨_, hub, hadd, by rw [hnew], fun acts c' hrun answer hub' hcollect => ?_⟩
  have hx : c.hub.clients.size < hub.clients.size := hsize ▸ Nat.lt_succ_self c.hub.clients.size
  obtain ⟨-, hdevice, hkey⟩ := hrun.retains.client _ hx
  rw [hnew] at hdevice hkey
  have hretains := (retains_after hafter).trans hrun.retains
  have hmodel := Device.getElem?_of_prefix (hretains.device i) h.model
  have hreachable := hrun.reachable (hc.act hallowed hafter)
  exact hreachable.answers_of_key hmodel hdevice hkey hcollect

/-- A load that fails leaves everything as it was. A key that a load gave stands for the file and the
model that was loaded from it in every course that follows, whatever is loaded, asked or played in the
meantime. -/
theorem Reachable.keys_identify (hc : c.Reachable) (hi : i < c.hub.devices.size) :
    (∀ loader path reason, (c.hub.device i).load loader path = .error reason →
      c.after (.load i loader path) = .ok c) ∧
    ∀ loader path key d, (c.hub.device i).load loader path = .ok (key, d) →
      ∃ c₁ loaded, c.after (.load i loader path) = .ok c₁ ∧ c₁.hub.device i = d ∧
        loaded.path = path ∧
        ((c.hub.device i).models[key]? = some loaded ∨
          (c.hub.device i).keyOf? path = none ∧
            loader path (c.hub.device i).name = .ok loaded.model) ∧
        ∀ acts c', Run c₁ acts c' → c'.Names i key loaded ∧ c'.Serves i key loaded := by
  constructor
  · intro loader path reason hfail
    rw [after, Hub.load, hfail]
  · intro loader path key d ok
    obtain ⟨loaded, hmodel, rfl, horigin⟩ := Device.exists_of_load ok
    have hafter : c.after (.load i loader loaded.path) =
        .ok { c with hub := c.hub.setDevice i d } := by rw [after, Hub.load, ok]
    have hdevice : (c.hub.setDevice i d).device i = d := Hub.device_setDevice_self d hi
    refine ⟨_, loaded, hafter, hdevice, rfl, horigin, fun acts c' hrun => ?_⟩
    have hkey : (c'.hub.device i).keyOf? loaded.path = some key := by
      refine Device.keyOf?_of_prefix (hrun.retains.device i) ?_
      rw [hdevice]
      exact Device.keyOf?_of_load ok
    have hmodel : (c'.hub.device i).models[key]? = some loaded := by
      refine Device.getElem?_of_prefix (hrun.retains.device i) ?_
      rw [hdevice]
      exact hmodel
    have hnames := names_of_keyOf? hmodel hkey
    have hreach := hc.act (a := .load i loader loaded.path) trivial hafter
    exact ⟨hnames, hnames.serves (hrun.reachable hreach)⟩

/-- A load of the built-in model, and one of a file that is not there. -/
theorem keys_identify_of_builtIn : ∃ c c' : Course, c.Reachable ∧ 0 < c.hub.devices.size ∧
    c.after (.load 0 .builtIn "uniform") = .ok c' ∧
    c'.after (.load 0 .builtIn "missing") = .ok c' ∧
    ∃ loaded, loaded.path = "uniform" ∧ c'.Names 0 0 loaded ∧ c'.Serves 0 0 loaded := by
  have h₀ : (start [.empty "cpu" 1]).Reachable :=
    ⟨_, [], fun d hd => ⟨"cpu", 1, by rw [List.mem_singleton.mp hd]; rfl⟩, .rest⟩
  have h₁ := h₀.act (a := .load 0 .builtIn "uniform") trivial rfl
  obtain ⟨c₁, loaded, hafter, -, hpath, -, hlasts⟩ :=
    (h₀.keys_identify Nat.zero_lt_one).2 .builtIn "uniform" 0 _ rfl
  cases hafter
  have hmissing := (h₁.keys_identify Nat.zero_lt_one).1 .builtIn "missing" _ rfl
  obtain ⟨hnames, hserves⟩ := hlasts [] _ .rest
  exact ⟨_, _, h₀, Nat.zero_lt_one, rfl, hmissing, loaded, hpath, hnames, hserves⟩

end Course

end Goban
