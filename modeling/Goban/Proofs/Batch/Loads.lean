import Goban.Batch.Device

/-!
# Keys of files on a device

The key of a file is the place of the first model that was loaded from it (`Device.keyOf?`). Models
are only added at the end, so a file that has a key keeps it (`Device.keyOf?_of_prefix`), and no
other file has the same one (`Device.keyOf?_inj`). A load gives the key that the file has afterwards
(`Device.keyOf?_of_load`), and it calls the loader only if the file had none before
(`Device.loadWith_eq`).
-/

namespace Goban.Device

variable {d d' : Device} {loader : Loader} {path path' : String} {key : ModelKey}

/-! ## Keys -/

theorem exists_of_keyOf? (h : d.keyOf? path = some key) :
    ∃ loaded, d.models[key]? = some loaded ∧ loaded.path = path := by
  obtain ⟨hlt, hpath, -⟩ := List.findIdx?_eq_some_iff_getElem.mp h
  exact ⟨_, List.getElem?_eq_getElem hlt, by simpa using hpath⟩

/-- Two files do not share a key. -/
theorem keyOf?_inj (h : d.keyOf? path = some key) (h' : d.keyOf? path' = some key) :
    path' = path := by
  obtain ⟨loaded, hloaded, rfl⟩ := exists_of_keyOf? h
  obtain ⟨loaded', hloaded', rfl⟩ := exists_of_keyOf? h'
  rw [hloaded] at hloaded'
  cases hloaded'
  rfl

/-- Models that are added later leave the others in their places. -/
theorem getElem?_of_prefix (hmodels : d.models <+: d'.models) {loaded : LoadedModel}
    (h : d.models[key]? = some loaded) : d'.models[key]? = some loaded := by
  obtain ⟨hlt, rfl⟩ := List.getElem?_eq_some_iff.mp h
  exact List.prefix_iff_getElem?.mp hmodels key hlt

/-- Models that are added later do not change a key. -/
theorem keyOf?_of_prefix (hmodels : d.models <+: d'.models) (h : d.keyOf? path = some key) :
    d'.keyOf? path = some key := by
  obtain ⟨more, hmore⟩ := hmodels
  rw [keyOf?] at h ⊢
  rw [← hmore, List.findIdx?_append, h, Option.some_or]

/-- The key of a file that is loaded now is the next one. -/
theorem keyOf?_push (h : d.keyOf? path = none) (model : Model) :
    keyOf? { d with models := d.models ++ [⟨path, model⟩] } path = some d.models.length := by
  rw [keyOf?] at h ⊢
  rw [List.findIdx?_append, h]
  simp

/-! ## Loads -/

/-- The loader is called once at most, and for a file without a key. The load does what it does with
a loader that only gives the same answer. -/
theorem loadWith_eq {m : Type → Type} [Monad m] [LawfulMonad m]
    (call : String → String → m (Except String Model)) (path : String) (d : Device) :
    d.loadWith call path = match d.keyOf? path with
      | some key => pure (.ok (key, d))
      | none => (fun answer => d.load (fun _ _ => answer) path) <$> call path d.name := by
  unfold load loadWith
  cases d.keyOf? path with
  | some key => rfl
  | none =>
    rw [map_eq_pure_bind]
    apply bind_congr
    rintro (reason | model)
    · rfl
    · rfl

/-- A load gives the key that the file has, or takes in what the loader gave. -/
theorem load_eq_ok (ok : d.load loader path = .ok (key, d')) :
    d.keyOf? path = some key ∧ d' = d ∨
      d.keyOf? path = none ∧ ∃ model, loader path d.name = .ok model ∧ key = d.models.length ∧
        d' = { d with models := d.models ++ [⟨path, model⟩] } := by
  unfold load loadWith at ok
  cases hkey : d.keyOf? path with
  | some found =>
    rw [hkey] at ok
    cases ok
    exact .inl ⟨rfl, rfl⟩
  | none =>
    rw [hkey] at ok
    cases hload : loader path d.name with
    | error reason =>
      simp only [hload, pure_bind] at ok
      cases ok
    | ok model =>
      simp only [hload, pure_bind] at ok
      cases ok
      exact .inr ⟨rfl, model, rfl, rfl, rfl⟩

theorem prefix_of_load (ok : d.load loader path = .ok (key, d')) : d.models <+: d'.models := by
  rcases load_eq_ok ok with ⟨-, rfl⟩ | ⟨-, model, -, -, rfl⟩
  · exact List.prefix_rfl
  · exact List.prefix_append _ _

/-- The key that a load gives is the key of the file from now on. -/
theorem keyOf?_of_load (ok : d.load loader path = .ok (key, d')) : d'.keyOf? path = some key := by
  rcases load_eq_ok ok with ⟨hkey, rfl⟩ | ⟨hnone, model, -, rfl, rfl⟩
  · exact hkey
  · exact keyOf?_push hnone model

/-- A load finds the model that was loaded from the file before, or it gets it from the loader. -/
theorem exists_of_load (ok : d.load loader path = .ok (key, d')) :
    ∃ loaded, d'.models[key]? = some loaded ∧ loaded.path = path ∧
      (d.models[key]? = some loaded ∨
        d.keyOf? path = none ∧ loader path d.name = .ok loaded.model) := by
  rcases load_eq_ok ok with ⟨hkey, rfl⟩ | ⟨hnone, model, hmodel, rfl, rfl⟩
  · obtain ⟨loaded, hloaded, hpath⟩ := exists_of_keyOf? hkey
    exact ⟨loaded, hloaded, hpath, .inl hloaded⟩
  · exact ⟨⟨path, model⟩, List.getElem?_concat_length, rfl, .inr ⟨hnone, hmodel⟩⟩

end Goban.Device
