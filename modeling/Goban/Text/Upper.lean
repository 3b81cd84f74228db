/-!
# Upper case of the basic letters

Vertices are read without regard to case, and a vertex consists of the basic letters `A` to `Z` and
digits. So only those characters matter whose upper case has a basic letter in it: the basic small
letters and a few others, some of which become two or three letters. Every other character is kept,
and neither it nor its upper case occurs in a vertex.
-/

namespace Goban.Text

/-- The upper case of a character, if there is a basic letter in it; else the character. -/
def upperChar (c : Char) : List Char :=
  match c with
  | 'ß' => ['S', 'S']
  | 'ı' => ['I']
  | 'ŉ' => ['\u02bc', 'N']
  | 'ſ' => ['S']
  | 'ǰ' => ['J', '\u030c']
  | 'ẖ' => ['H', '\u0331']
  | 'ẗ' => ['T', '\u0308']
  | 'ẘ' => ['W', '\u030a']
  | 'ẙ' => ['Y', '\u030a']
  | 'ẚ' => ['A', '\u02be']
  | 'ﬀ' => ['F', 'F']
  | 'ﬁ' => ['F', 'I']
  | 'ﬂ' => ['F', 'L']
  | 'ﬃ' => ['F', 'F', 'I']
  | 'ﬄ' => ['F', 'F', 'L']
  | 'ﬅ' => ['S', 'T']
  | 'ﬆ' => ['S', 'T']
  | c => [c.toUpper]

/-- A text in upper case, as far as the basic letters go. -/
def upper (s : List Char) : List Char := s.flatMap upperChar

end Goban.Text
