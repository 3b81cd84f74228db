import Goban.Proofs.Files.Places
import Goban.Proofs.Table.Fields

/-!
# Tables lie below the root

The file of a table lies in a directory of its instance, in a directory of its project, in the root
directory (`TableSpec.Below`). For an accepted text this is so exactly if its project and its
instance are names of directories and its table is part of a name (`TableSpec.below_iff`), and then
no two tables share a file (`TableSpec.tables_apart`). Nothing asks for that when a text is
accepted: a slash in a field moves the borders between fields, one at its beginning leaves the root,
and two dots lead upwards (`TableSpec.tables_collide`).
-/

namespace Goban

/-! ## Names of joined paths -/

/-- The parts of a path and of a relative one behind it, as far as empty parts do not count. -/
theorem Path.filter_split_join {keep : List Char → Bool} (hkeep : keep [] = false) (path : String)
    {part : String} (hpart : part.toList.head? ≠ some '/') :
    (Text.split '/' (join path part).toList).filter keep =
      (Text.split '/' path.toList).filter keep ++ (Text.split '/' part.toList).filter keep := by
  have hnil : (Text.split '/' []).filter keep = [] := by simp [Text.split, hkeep]
  rw [join, if_neg hpart]
  split
  · rename_i hend
    rw [Bool.or_eq_true, String.isEmpty_iff, beq_iff_eq] at hend
    rw [String.toList_append]
    rcases hend with rfl | hend
    · exact (congrArg (· ++ _) hnil).symm
    · obtain ⟨front, hfront⟩ := List.getLast?_eq_some_iff.mp hend
      rw [hfront, List.append_assoc, List.singleton_append, Text.split_append_separator,
        Text.split_append_separator, List.filter_append, List.filter_append, hnil, List.append_nil]
  · rw [String.toList_append, String.toList_append, List.append_assoc]
    show (Text.split '/' (path.toList ++ '/' :: part.toList)).filter keep = _
    rw [Text.split_append_separator, List.filter_append]

theorem Path.names_join (path : String) {part : String} (hpart : part.toList.head? ≠ some '/') :
    names (join path part) = names path ++ names part :=
  filter_split_join rfl path hpart

/-- A relative part does not change where a path starts. -/
theorem Path.head?_join (path : String) {part : String} (hpart : part.toList.head? ≠ some '/') :
    (join path part).toList.head? = some '/' ↔ path.toList.head? = some '/' := by
  rw [join, if_neg hpart]
  cases hpath : path.toList with
  | nil =>
    obtain rfl : path = "" := String.toList_eq_nil_iff.mp hpath
    simpa using hpart
  | cons c cs => split <;> simp [hpath]

/-- A relative path leads on from the place where the one before it ends. -/
theorem Files.resolve_join (f : Files) (path : String) {part : String}
    (hpart : part.toList.head? ≠ some '/') :
    f.resolve (Path.join path part) = (names part).foldl enter (f.resolve path) := by
  have hnames : names (Path.join path part) = names path ++ names part := by
    simp only [names, List.filter_map]
    rw [Path.filter_split_join rfl path hpart, List.map_append]
  have hstart : f.start (Path.join path part) = f.start path := by
    simp only [start, Path.head?_join path hpart]
  rw [resolve, hnames, hstart, List.foldl_append]
  rfl

theorem Path.mem_names {path : String} {name : List Char} (h : name ∈ names path) :
    '/' ∉ name ∧ name ≠ ['.'] := by
  obtain ⟨hpart, hkeep⟩ := List.mem_filter.mp h
  rw [Bool.and_eq_true, bne_iff_ne, bne_iff_ne] at hkeep
  exact ⟨Text.notMem_of_mem_split hpart, hkeep.2⟩

/-- A relative path that does not lead upwards anywhere. -/
structure Path.LeadsDown (part : String) : Prop where
  relative : part.toList.head? ≠ some '/'
  dots : ".." ∉ Files.names part

theorem Files.exists_foldl_enter {ns : List String} (h : ".." ∉ ns) (place : Place) :
    ∃ more, ns.foldl enter place = more ++ place := by
  induction ns generalizing place with
  | nil => exact ⟨[], rfl⟩
  | cons name ns ih =>
    obtain ⟨hname, hns⟩ := not_or.mp (mt List.mem_cons.mpr h)
    obtain ⟨more, hmore⟩ := ih hns (enter place name)
    rw [List.foldl_cons, hmore, enter, if_neg (Ne.symm hname)]
    split
    · exact ⟨more, rfl⟩
    · exact ⟨more ++ [name], (List.append_assoc more [name] place).symm⟩

/-- Such a path ends at or below the place of the one before it. -/
theorem Path.LeadsDown.exists_resolve_join {part : String} (h : LeadsDown part) (f : Files)
    (path : String) : ∃ more, f.resolve (join path part) = more ++ f.resolve path := by
  rw [f.resolve_join path h.relative]
  exact Files.exists_foldl_enter h.dots _

/-- A text that names a file or a directory in the directory where it is looked for. -/
structure Path.IsName (s : String) : Prop where
  ne_empty : s ≠ ""
  slash : '/' ∉ s.toList
  dot : s ≠ "."
  dots : s ≠ ".."

namespace Path.IsName

variable {s : String}

theorem head? (h : IsName s) : s.toList.head? ≠ some '/' := fun hs =>
  h.slash (List.mem_of_mem_head? hs)

theorem names_eq (h : IsName s) : Files.names s = [s] := by
  rw [Files.names, Text.split_of_notMem h.slash, List.map_singleton, String.ofList_toList]
  simp [h.ne_empty]

theorem names_join (h : IsName s) (path : String) :
    names (join path s) = names path ++ [s.toList] := by
  have hnil : s.toList ≠ [] := mt String.toList_eq_nil_iff.mp h.ne_empty
  have hdot : s.toList ≠ ['.'] := fun hs => h.dot (String.toList_inj.mp hs)
  have hnames : names s = [s.toList] := by
    rw [names, Text.split_of_notMem h.slash]
    simp [hnil, hdot]
  rw [Path.names_join path h.head?, hnames]

theorem resolve_join (h : IsName s) (f : Files) (path : String) :
    f.resolve (join path s) = s :: f.resolve path := by
  rw [f.resolve_join path h.head?, h.names_eq, List.foldl_cons, List.foldl_nil, Files.enter,
    if_neg h.dot, if_neg h.dots]

end Path.IsName

namespace TableSpec

variable {s s' root : String} {spec spec' : TableSpec}

/-! ## Plain tables -/

/-- The name of the file of a table. -/
def fileName (spec : TableSpec) : String := spec.table ++ ".jsonl"

/-- The names below the root directory. -/
def below (spec : TableSpec) : List String := [spec.project, spec.inst, spec.fileName]

/-- The fields lead down from the directory where they are looked for. -/
def LeadsDown (spec : TableSpec) : Prop := ∀ name ∈ spec.below, Path.LeadsDown name

/-- The project and the instance name directories, and the table is part of the name of a file. -/
structure IsPlain (spec : TableSpec) : Prop where
  project : spec.project ≠ "." ∧ spec.project ≠ ".." ∧ '/' ∉ spec.project.toList
  inst : spec.inst ≠ "." ∧ spec.inst ≠ ".." ∧ '/' ∉ spec.inst.toList
  table : '/' ∉ spec.table.toList

/-- The file of a table lies where it is expected. -/
structure Below (root : String) (spec : TableSpec) : Prop where
  /-- Its path is that of the root with three more names, -/
  names : Path.names (spec.path root) = Path.names root ++ spec.below.map String.toList
  /-- none of which leads upwards. -/
  down : ".." ∉ spec.below
  /-- It starts at the root of all files if the root directory does, -/
  start : (spec.path root).toList.head? = some '/' ↔ root.toList.head? = some '/'
  /-- and leads to a place in the root directory, whatever stands there. -/
  place (f : Files) : f.resolve (spec.path root) = spec.below.reverse ++ f.resolve root

theorem isName_fileName (h : '/' ∉ spec.table.toList) : Path.IsName spec.fileName := by
  have hlength : 6 ≤ spec.fileName.length := by
    rw [fileName, String.length_append]
    exact Nat.le_add_left 6 _
  have hne {s : String} (hs : s.length < 6) : spec.fileName ≠ s := by
    rintro rfl
    exact absurd hlength (Nat.not_le_of_lt hs)
  exact ⟨hne (by decide), by simpa [fileName] using h, hne (by decide), hne (by decide)⟩

/-- The fields of a plain table that was accepted are names. -/
theorem IsPlain.isName (h : spec.IsPlain) (ok : parse s = .ok (some spec)) :
    Path.IsName spec.project ∧ Path.IsName spec.inst ∧ Path.IsName spec.fileName := by
  have hproper := (spells_of_parse ok).isProper
  exact ⟨⟨hproper.project.ne_empty, h.project.2.2, h.project.1, h.project.2.1⟩,
    ⟨hproper.inst.ne_empty, h.inst.2.2, h.inst.1, h.inst.2.1⟩, isName_fileName h.table⟩

theorem path_eq (root : String) (spec : TableSpec) : spec.path root =
    Path.join (Path.join (Path.join root spec.project) spec.inst) spec.fileName := rfl

/-- A table whose fields lead down has its file in the root directory or deeper. -/
theorem LeadsDown.exists_place (h : spec.LeadsDown) (root : String) (f : Files) :
    ∃ more, f.resolve (spec.path root) = more ++ f.resolve root := by
  obtain ⟨first, hfirst⟩ := (h spec.project (by simp [below])).exists_resolve_join f root
  obtain ⟨second, hsecond⟩ := (h spec.inst (by simp [below])).exists_resolve_join f
    (Path.join root spec.project)
  obtain ⟨third, hthird⟩ := (h spec.fileName (by simp [below])).exists_resolve_join f
    (Path.join (Path.join root spec.project) spec.inst)
  exact ⟨third ++ (second ++ first), by
    rw [path_eq, hthird, hsecond, hfirst, List.append_assoc, List.append_assoc]⟩

theorem IsPlain.below (h : spec.IsPlain) (ok : parse s = .ok (some spec)) (root : String) :
    Below root spec := by
  obtain ⟨hproject, hinst, hfile⟩ := h.isName ok
  constructor
  · rw [path_eq, hfile.names_join, hinst.names_join, hproject.names_join, List.append_assoc,
      List.append_assoc]
    rfl
  · simp only [TableSpec.below, List.mem_cons, List.not_mem_nil, or_false, not_or]
    exact ⟨Ne.symm hproject.dots, Ne.symm hinst.dots, Ne.symm hfile.dots⟩
  · rw [path_eq, Path.head?_join _ hfile.head?, Path.head?_join _ hinst.head?,
      Path.head?_join _ hproject.head?]
  · intro f
    rw [path_eq, hfile.resolve_join, hinst.resolve_join, hproject.resolve_join]
    rfl

theorem Below.isPlain (h : Below root spec) : spec.IsPlain := by
  have hname (name : String) (hmem : name ∈ spec.below) :
      name ≠ "." ∧ name ≠ ".." ∧ '/' ∉ name.toList := by
    have hnames : name.toList ∈ Path.names (spec.path root) := by
      rw [h.names]
      exact List.mem_append_right _ (List.mem_map_of_mem hmem)
    obtain ⟨hslash, hdot⟩ := Path.mem_names hnames
    exact ⟨fun heq => hdot (heq ▸ rfl), fun heq => h.down (heq ▸ hmem), hslash⟩
  refine ⟨hname spec.project (by simp [below]), hname spec.inst (by simp [below]), ?_⟩
  simpa [fileName] using (hname spec.fileName (by simp [below])).2.2

/-- The files of accepted tables lie where they are expected exactly if the tables are plain. -/
theorem below_iff (ok : parse s = .ok (some spec)) (root : String) :
    Below root spec ↔ spec.IsPlain :=
  ⟨Below.isPlain, fun h => h.below ok root⟩

theorem below_inj : spec.below = spec'.below ↔ spec = spec' := by
  obtain ⟨project, inst, table⟩ := spec
  obtain ⟨project', inst', table'⟩ := spec'
  simp [below, fileName, String.append_left_inj]

/-! ## Tables apart -/

/-- The paths of two tables below a root have different names. -/
theorem Below.names_ne (h : Below root spec) (h' : Below root spec') (hne : spec ≠ spec') :
    Path.names (spec.path root) ≠ Path.names (spec'.path root) := by
  rw [h.names, h'.names]
  intro heq
  exact hne (below_inj.mp ((List.map_inj_right fun _ _ => String.toList_inj.mp).mp
    (List.append_cancel_left heq)))

/-- They lead to different places, whatever stands there. -/
theorem Below.place_ne (h : Below root spec) (h' : Below root spec') (hne : spec ≠ spec')
    (f : Files) : f.resolve (spec.path root) ≠ f.resolve (spec'.path root) := by
  rw [h.place, h'.place]
  intro heq
  exact hne (below_inj.mp (List.reverse_inj.mp (List.append_cancel_right heq)))

/-- Different tables have different files below the root. The file of an accepted table lies where
it is expected, below any root directory, exactly if the table is plain, and somewhere below it if
its fields lead down; and two different tables that are both plain have paths with different names,
which lead to different places. -/
theorem tables_apart (ok : parse s = .ok (some spec)) (ok' : parse s' = .ok (some spec'))
    (hne : spec ≠ spec') (root : String) :
    (Below root spec ↔ spec.IsPlain) ∧ (Below root spec' ↔ spec'.IsPlain) ∧
    (spec.LeadsDown → ∀ f : Files, ∃ more, f.resolve (spec.path root) = more ++ f.resolve root) ∧
    (spec.IsPlain → spec'.IsPlain →
      Path.names (spec.path root) ≠ Path.names (spec'.path root) ∧
      ∀ f : Files, f.resolve (spec.path root) ≠ f.resolve (spec'.path root)) := by
  refine ⟨below_iff ok root, below_iff ok' root, fun h => h.exists_place root, fun h h' => ?_⟩
  have hbelow := h.below ok root
  have hbelow' := h'.below ok' root
  exact ⟨hbelow.names_ne hbelow' hne, hbelow.place_ne hbelow' hne⟩

theorem tables_apart_of_instances :
    parse "club,blitz,games" = .ok (some ⟨"club", "blitz", "games"⟩) ∧
    parse "club, slow ,games" = .ok (some ⟨"club", "slow", "games"⟩) ∧
    Below "tables" ⟨"club", "blitz", "games"⟩ ∧ Below "tables" ⟨"club", "slow", "games"⟩ ∧
    Path.names (path "tables" ⟨"club", "blitz", "games"⟩) ≠
      Path.names (path "tables" ⟨"club", "slow", "games"⟩) := by
  have ok : parse "club,blitz,games" = .ok (some ⟨"club", "blitz", "games"⟩) := rfl
  have ok' : parse "club, slow ,games" = .ok (some ⟨"club", "slow", "games"⟩) := rfl
  have hplain : IsPlain ⟨"club", "blitz", "games"⟩ := ⟨by decide, by decide, by decide⟩
  have hplain' : IsPlain ⟨"club", "slow", "games"⟩ := ⟨by decide, by decide, by decide⟩
  obtain ⟨hbelow, hbelow', -, hapart⟩ := tables_apart ok ok' (by decide) "tables"
  exact ⟨ok, ok', hbelow.mpr hplain, hbelow'.mpr hplain', (hapart hplain hplain').1⟩

/-- Two tables may have one path, and the path of a table may leave the root directory. -/
theorem tables_collide :
    (parse "a/b,c,d" = .ok (some ⟨"a/b", "c", "d"⟩) ∧
      parse "a,b/c,d" = .ok (some ⟨"a", "b/c", "d"⟩) ∧
      path "tables" ⟨"a/b", "c", "d"⟩ = path "tables" ⟨"a", "b/c", "d"⟩) ∧
    (parse "/etc,hosts,x" = .ok (some ⟨"/etc", "hosts", "x"⟩) ∧
      path "tables" ⟨"/etc", "hosts", "x"⟩ = "/etc/hosts/x.jsonl") ∧
    (parse "..,x,y" = .ok (some ⟨"..", "x", "y"⟩) ∧
      ∀ f : Files, f.resolve (path "tables" ⟨"..", "x", "y"⟩) = ["y.jsonl", "x"] ++ f.current) := by
  refine ⟨⟨rfl, rfl, rfl⟩, ⟨rfl, rfl⟩, rfl, fun f => ?_⟩
  rfl

end TableSpec

end Goban
