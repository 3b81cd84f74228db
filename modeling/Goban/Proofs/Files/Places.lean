import Goban.Program.Output

/-!
# Places of files

The place that a path leads to is said by its names alone (`Files.resolve`); what stands in the tree
only decides whether the path can be followed to a file (`Files.eq_resolve_of_filePlace`).
Directories that are made leave all texts as they are (`Files.Keeps`), and a text that is added to a
file stands behind what the file holds, while all other files stay as they are (`Files.Grows`). Both
rest on what a list with keys holds after one of them was given a new value (`valueAt_renew`).
-/

namespace Goban

/-! ## Lists with keys -/

section Keys

variable {α β : Type} [BEq α]

/-- The first value under a key. -/
def valueAt (entries : List (α × β)) (key : α) : Option β :=
  (entries.find? (·.1 == key)).map (·.2)

/-- The list with a new value under a key, which comes last if there was none. -/
def renew (entries : List (α × β)) (key : α) (value : Option β → β) : List (α × β) :=
  if entries.any (·.1 == key) then
    entries.map fun e => if e.1 == key then (e.1, value (some e.2)) else e
  else entries ++ [(key, value none)]

theorem valueAt_eq_none {entries : List (α × β)} {key : α} :
    valueAt entries key = none ↔ ¬entries.any (·.1 == key) = true := by
  rw [valueAt, Option.map_eq_none_iff, List.find?_eq_none, List.any_eq_true]
  constructor
  · rintro h ⟨e, he, hkey⟩
    exact h e he hkey
  · intro h e he hkey
    exact h ⟨e, he, hkey⟩

/-- No other key has a new value. -/
theorem valueAt_renew [LawfulBEq α] [DecidableEq α] (entries : List (α × β)) (key p : α)
    (value : Option β → β) : valueAt (renew entries key value) p =
      if p = key then some (value (valueAt entries key)) else valueAt entries p := by
  unfold renew
  split
  · rename_i hany
    have hkeys : (fun e : α × β => e.1 == p) ∘
        (fun e => if e.1 == key then (e.1, value (some e.2)) else e) = fun e => e.1 == p := by
      funext e
      rw [Function.comp_apply]
      split <;> rfl
    rw [valueAt, List.find?_map, hkeys]
    cases hfound : entries.find? (·.1 == p) with
    | none =>
      have hne : p ≠ key := by
        rintro rfl
        exact valueAt_eq_none.mp (by rw [valueAt, hfound]; rfl) hany
      rw [if_neg hne, valueAt, hfound]
      rfl
    | some e =>
      have he : e.1 = p := by simpa using List.find?_some hfound
      by_cases hp : p = key
      · subst hp
        simp [valueAt, hfound, he]
      · simp [valueAt, hfound, he, hp]
  · rename_i hany
    rw [valueAt, List.find?_append]
    by_cases hp : p = key
    · subst hp
      have hnone := valueAt_eq_none.mpr hany
      rw [if_pos rfl, hnone, Option.map_eq_none_iff.mp hnone, Option.none_or, List.find?_singleton,
        if_pos (beq_self_eq_true p)]
      rfl
    · have hother : ¬(key == p) = true := fun h => hp (beq_iff_eq.mp h).symm
      rw [if_neg hp, List.find?_singleton, if_neg hother, Option.or_none]
      rfl

end Keys

namespace Files

variable {f f' f'' : Files} {path text name : String} {place p : Place} {ns : List String}
  {entry : Entry}

/-! ## Where a path leads -/

/-- The place that a name leads to, whatever stands there. -/
def enter (place : Place) (name : String) : Place :=
  if name = "." then place else if name = ".." then place.tail else name :: place

/-- The place that a path leads to, whatever stands on the way. -/
def resolve (f : Files) (path : String) : Place := (names path).foldl enter (f.start path)

theorem enter_of_next (ok : next place name = .ok p) : p = enter place name := by
  unfold next at ok
  unfold enter
  split at ok
  · rename_i hdot
    rw [if_pos hdot]
    cases ok
    rfl
  rename_i hdot
  rw [if_neg hdot]
  split at ok
  · rename_i hdots
    rw [if_pos hdots]
    cases ok
    rfl
  rename_i hdots
  rw [if_neg hdots]
  split at ok <;> cases ok
  rfl

theorem foldl_enter_of_follow (ok : f.follow ns place = .ok p) : p = ns.foldl enter place := by
  induction ns generalizing place with
  | nil =>
    cases ok
    rfl
  | cons name ns ih =>
    obtain ⟨next, hnext, ok⟩ := bind_eq_ok ok
    rw [List.foldl_cons, ← enter_of_next hnext]
    split at ok
    · cases ok
    · cases ok
    · exact ih ok

/-- A path that can be followed to a file leads to its place, where no directory stands. -/
theorem eq_resolve_of_filePlace (ok : f.filePlace path = .ok p) :
    p = f.resolve path ∧ f.entry? p ≠ some .directory := by
  obtain ⟨-, -, ok⟩ := bind_eq_ok ok
  split at ok
  · cases ok
  rename_i name above hnames
  obtain ⟨directory, hfollow, ok⟩ := bind_eq_ok ok
  obtain ⟨place, hnext, ok⟩ := bind_eq_ok ok
  have hplace : place = f.resolve path := by
    rw [resolve, ← (names path).reverse_reverse, hnames, List.reverse_cons, List.foldl_append,
      ← foldl_enter_of_follow hfollow]
    exact enter_of_next hnext
  split at ok
  · cases ok
  split at ok
  · cases ok
  · rename_i hentry
    cases ok
    exact ⟨hplace, hentry⟩

/-! ## What stands in the tree -/

theorem entries_put (f : Files) (place : Place) (entry : Entry) :
    (f.put place entry).entries = renew f.entries place fun _ => entry := by
  unfold put renew
  split
  · refine List.map_congr_left fun e _ => ?_
    split
    · rename_i he
      rw [beq_iff_eq.mp he]
    · rfl
  · rfl

theorem entry?_put (hne : place ≠ []) (p : Place) :
    Files.entry? (f.put place entry) p = if p = place then some entry else f.entry? p := by
  by_cases hroot : p = []
  · subst hroot
    rw [if_neg (Ne.symm hne)]
    rfl
  have hentry (f : Files) : f.entry? p = valueAt f.entries p := by
    unfold entry?
    rw [if_neg (by simpa using hroot)]
    rfl
  rw [hentry, hentry, entries_put, valueAt_renew]

/-- The place of a missing entry, or of one that is no directory, is not the root. -/
theorem ne_root_of_not_directory (h : f.entry? place ≠ some .directory) : place ≠ [] := by
  rintro rfl
  exact h rfl

/-! ## Directories -/

/-- All texts are as they were. -/
structure Keeps (f f' : Files) : Prop where
  current : f'.current = f.current
  text? (p : Place) : f'.text? p = f.text? p

theorem Keeps.resolve (h : Keeps f f') (path : String) : f'.resolve path = f.resolve path := by
  rw [Files.resolve, Files.resolve, start, start, h.current]

theorem Keeps.trans (h : Keeps f f') (h' : Keeps f' f'') : Keeps f f'' :=
  ⟨h'.current.trans h.current, fun p => (h'.text? p).trans (h.text? p)⟩

theorem current_put (f : Files) (place : Place) (entry : Entry) :
    (f.put place entry).current = f.current := by
  unfold put
  split <;> rfl

/-- A directory that is made where nothing stood is no text, and nothing was. -/
theorem keeps_put_directory (h : f.entry? place = none) : Keeps f (f.put place .directory) := by
  refine ⟨current_put f place _, fun p => ?_⟩
  rw [Files.text?, Files.text?, entry?_put (ne_root_of_not_directory (by rw [h]; nofun))]
  by_cases hp : p = place
  · rw [if_pos hp, hp, h]
  · rw [if_neg hp]

theorem keeps_of_makeAll (ok : f.makeAll ns place = .ok f') : Keeps f f' := by
  induction ns generalizing f place with
  | nil =>
    cases ok
    exact ⟨rfl, fun _ => rfl⟩
  | cons name ns ih =>
    obtain ⟨next, -, ok⟩ := bind_eq_ok ok
    split at ok
    · exact ih ok
    · cases ok
    · rename_i hnone
      split at ok
      · cases ok
      · exact (keeps_put_directory hnone).trans (ih ok)

theorem keeps_of_makeParents (ok : f.makeParents path = .ok f') : Keeps f f' := by
  obtain ⟨-, -, ok⟩ := bind_eq_ok ok
  exact keeps_of_makeAll ok

/-! ## Texts that are added -/

/-- A text is added to the file at a place, and all other texts are as they were. -/
structure Grows (f f' : Files) (place : Place) (text : String) : Prop where
  current : f'.current = f.current
  here : f'.text? place = some ((f.text? place).getD "" ++ text)
  elsewhere (p : Place) (hp : p ≠ place) : f'.text? p = f.text? p

theorem grows_put (h : f.entry? place ≠ some .directory) (text : String) :
    Grows f (f.put place (.file ((f.text? place).getD "" ++ text))) place text := by
  have hne := ne_root_of_not_directory h
  refine ⟨current_put f place _, ?_, fun p hp => ?_⟩
  · rw [Files.text?, entry?_put hne, if_pos rfl]
  · rw [Files.text?, entry?_put hne, if_neg hp, Files.text?]

theorem grows_of_append (ok : f.append path text = .ok f') : Grows f f' (f.resolve path) text := by
  obtain ⟨place, hplace, ok⟩ := bind_eq_ok ok
  obtain ⟨rfl, hentry⟩ := eq_resolve_of_filePlace hplace
  have hgrows := grows_put hentry text
  unfold Files.text? at hgrows
  split at ok <;> rename_i h <;> cases ok
  · rwa [h] at hgrows
  · cases hfound : f.entry? (f.resolve path) with
    | none =>
      rw [hfound] at hgrows
      simpa using hgrows
    | some entry =>
      cases entry with
      | directory => exact absurd hfound hentry
      | file content => exact absurd hfound (h content)

/-- Rows are added to the file that their path leads to, in the directories made for it. -/
theorem grows_of_rows (ok : Output.perform f (.rows name path text) = .ok f') :
    Grows f f' (f.resolve path) text := by
  obtain ⟨g, hmade, ok⟩ := bind_eq_ok ok
  have hkeeps := keeps_of_makeParents hmade
  have hgrows := grows_of_append ok
  rw [hkeeps.resolve] at hgrows
  refine ⟨hgrows.current.trans hkeeps.current, ?_, fun p hp => ?_⟩
  · rw [hgrows.here, hkeeps.text?]
  · rw [hgrows.elsewhere p hp, hkeeps.text?]

end Files

end Goban
