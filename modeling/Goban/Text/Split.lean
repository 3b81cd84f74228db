/-!
# Parts of a text

A text is cut at every occurrence of a character, so that joining the parts with that character
gives the text again.
-/

namespace Goban.Text

/-- The parts of a text between the occurrences of a character. -/
def split (separator : Char) : List Char → List (List Char)
  | [] => [[]]
  | c :: rest =>
    if c = separator then [] :: split separator rest
    else match split separator rest with
      | [] => [[c]]
      | part :: parts => (c :: part) :: parts

end Goban.Text
