import Goban.Path

/-!
# Files

A tree of directories and files below one root, and the ways in which a program changes it: it makes
directories, it writes a file, and it adds to the end of one. A path is followed name by name, from
the root or from the current directory, and every name but the last must stand for a directory. Two
dots lead to the directory above, so that a place has one list of names, and no two entries of a
tree that was made by these operations are for the same place.
-/

namespace Goban

/-- Why a file or a directory could not be made. -/
inductive FileError where
  /-- A name on the way stands for nothing. -/
  | missing
  /-- A file stands where a directory is to be made. -/
  | taken
  /-- A name on the way stands for a file. -/
  | notDirectory
  /-- A directory stands where a file is to be written. -/
  | isDirectory
  /-- A name takes more than 255 bytes. -/
  | longName
  /-- A name holds the character that ends a text for the system. -/
  | endOfText
  /-- Something else, with its number and its reason. -/
  | other (number : Nat) (reason : String)
deriving DecidableEq, Repr

/-- The text of an error, with the number that the system gives it. -/
def FileError.message : FileError → String
  | missing => "No such file or directory (os error 2)"
  | taken => "File exists (os error 17)"
  | notDirectory => "Not a directory (os error 20)"
  | isDirectory => "Is a directory (os error 21)"
  | longName => "File name too long (os error 36)"
  | endOfText => "file name contained an unexpected NUL byte"
  | other number reason => s!"{reason} (os error {number})"

/-- The names that lead from the root to a place, the last one first. -/
abbrev Place := List String

/-- What stands at a place. -/
inductive Entry where
  | directory
  | file (content : String)
deriving DecidableEq, Repr

/-- A tree of directories and files. The root is a directory and has no entry. -/
structure Files where
  /-- The directory that paths start from if they do not start at the root. -/
  current : Place
  entries : List (Place × Entry)

namespace Files

/-- What stands at a place, if anything does. -/
def entry? (f : Files) (place : Place) : Option Entry :=
  if place.isEmpty then some .directory else (f.entries.find? (·.1 == place)).map (·.2)

/-- The tree with an entry at a place, instead of the one that was there. -/
def put (f : Files) (place : Place) (entry : Entry) : Files :=
  if f.entries.any (·.1 == place) then
    { f with entries := f.entries.map fun e => if e.1 == place then (place, entry) else e }
  else { f with entries := f.entries ++ [(place, entry)] }

/-- The text of the file at a place, if there is a file. -/
def text? (f : Files) (place : Place) : Option String :=
  match f.entry? place with
  | some (.file content) => some content
  | _ => none

/-- The files below a directory, each with its path from there. -/
def below (f : Files) (directory : Place) : List (String × String) :=
  f.entries.filterMap fun
    | (place, .file content) =>
      if directory.isSuffixOf place && directory.length < place.length then
        some ("/".intercalate (place.take (place.length - directory.length)).reverse, content)
      else none
    | _ => none

/-! ## Paths -/

/-- The names of a path; a name of one dot counts. -/
def names (path : String) : List String :=
  ((Text.split '/' path.toList).map String.ofList).filter (· != "")

/-- The place that a path starts from. -/
def start (f : Files) (path : String) : Place :=
  if path.toList.head? = some '/' then [] else f.current

/-- Whether a name leads to a directory wherever it can be followed. -/
def isDots (name : String) : Bool := name == "." || name == ".."

/-- The place that a name leads to. -/
def next (place : Place) (name : String) : Except FileError Place :=
  if name = "." then .ok place
  else if name = ".." then .ok place.tail
  else if 255 < name.utf8ByteSize then .error .longName
  else .ok (name :: place)

/-- The place that names lead to, all of which stand for directories. -/
def follow (f : Files) : List String → Place → Except FileError Place
  | [], place => .ok place
  | name :: rest, place => do
    let place ← next place name
    match f.entry? place with
    | none => .error .missing
    | some (.file _) => .error .notDirectory
    | some .directory => f.follow rest place

/-- Refuses a path that the system would read only a part of. -/
def checkText (path : String) : Except FileError Unit :=
  if path.toList.contains '\x00' then .error .endOfText else .ok ()

/-- The place of the file that a path names: in a directory, and not the place of one. -/
def filePlace (f : Files) (path : String) : Except FileError Place := do
  checkText path
  match (names path).reverse with
  | [] => .error (if path.isEmpty then .missing else .isDirectory)
  | name :: above =>
    let place ← next (← f.follow above.reverse (f.start path)) name
    if isDots name || path.toList.getLast? == some '/' then .error .isDirectory
    else match f.entry? place with
      | some .directory => .error .isDirectory
      | _ => .ok place

/-! ## Changes -/

/-- Makes those directories that do not exist of those that names lead to. A missing directory that
only single dots follow is looked for before it is made. -/
def makeAll (f : Files) : List String → Place → Except FileError Files
  | [], _ => .ok f
  | name :: rest, place => do
    let place ← next place name
    match f.entry? place with
    | some .directory => f.makeAll rest place
    | some (.file _) => .error (if rest.isEmpty then .taken else .notDirectory)
    | none =>
      if !rest.isEmpty && rest.all (· == ".") then .error .missing
      else (f.put place .directory).makeAll rest place

/-- Makes a directory and those above it, as far as they do not exist. -/
def makeDirectories (f : Files) (path : String) : Except FileError Files := do
  checkText path
  f.makeAll (names path) (f.start path)

/-- Makes the directory of a file, as far as it does not exist. -/
def makeParents (f : Files) (path : String) : Except FileError Files := do
  checkText path
  let above := ((names path).reverse.tail.dropWhile (· == ".")).reverse
  f.makeAll above (f.start path)

/-- Writes a file, whatever it held before. -/
def write (f : Files) (path text : String) : Except FileError Files := do
  return f.put (← f.filePlace path) (.file text)

/-- Adds a text to the end of a file, which is made if it does not exist. -/
def append (f : Files) (path text : String) : Except FileError Files := do
  let place ← f.filePlace path
  match f.entry? place with
  | some (.file content) => return f.put place (.file (content ++ text))
  | _ => return f.put place (.file text)

end Files

end Goban
