/-!
# Columns of a fixed width

Texts filled up with blanks to a number of characters; a longer text is left as it is.
-/

namespace Goban.Text

/-- A text of so many blanks. -/
def blanks (n : Nat) : String := String.ofList (List.replicate n ' ')

/-- The text at the right end of a column. -/
def right (width : Nat) (s : String) : String := blanks (width - s.length) ++ s

/-- The text at the left end of a column. -/
def left (width : Nat) (s : String) : String := s ++ blanks (width - s.length)

/-- The text in the middle of a column; an odd blank stands on the right. -/
def centre (width : Nat) (s : String) : String :=
  let room := width - s.length
  blanks (room / 2) ++ s ++ blanks (room - room / 2)

end Goban.Text
