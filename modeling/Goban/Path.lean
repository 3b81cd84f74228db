import Goban.Text.Split

/-!
# File paths

Paths are texts of names between slashes. Empty names and the name of one dot are skipped; the name
of two dots stands for the directory above.
-/

namespace Goban.Path

/-- The names of a path, without the empty ones and those of one dot. -/
def names (path : String) : List (List Char) :=
  (Text.split '/' path.toList).filter fun name => name != [] && name != ['.']

/-- The last name of a path; none if there is no name or if it leads upwards. -/
def fileName? (path : String) : Option (List Char) :=
  match (names path).getLast? with
  | some ['.', '.'] => none
  | name => name

/-- A file name without its extension: what stands before the last dot, or the whole name if there
is no dot or nothing before it. -/
def stem (name : List Char) : List Char :=
  match (name.reverse.dropWhile (· != '.')).tail.reverse with
  | [] => name
  | front => front

/-- A path continued by another, which replaces it if it starts at the root. -/
def join (path part : String) : String :=
  if part.toList.head? = some '/' then part
  else if path.isEmpty || path.toList.getLast? == some '/' then path ++ part
  else path ++ "/" ++ part

/-- The directory that a path lies in: the names before the last one. -/
def parent (path : String) : String :=
  String.ofList ((path.toList.reverse.dropWhile (· != '/')).tail.reverse)

end Goban.Path
