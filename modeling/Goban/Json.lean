import Goban.Single.Decimal

/-!
# JSON values

The rows of game records and the summaries of wins are written as JSON on one line, without blanks,
with the fields of an object in the order of the value. In strings the quote, the backslash and the
characters below U+0020 are escaped, and all else is written as it is.

A number is kept as its text, so that a value is read back as it was written.
-/

namespace Goban

/-- A JSON value. -/
inductive Json where
  | null
  | bool (b : Bool)
  /-- A number, as its text. -/
  | number (text : String)
  | text (s : String)
  | list (items : List Json)
  | object (fields : List (String × Json))
deriving Inhabited

namespace Json

/-- A natural number. -/
def nat (n : Nat) : Json := .number (toString n)

/-- A single precision number in its fewest digits; infinities and NaNs have no JSON form. -/
def single (x : Single) : Json := if x.isFinite then .number x.shortest else .null

/-- A digit of a number in base sixteen. -/
def hexDigit (n : Nat) : Char :=
  if n < 10 then Char.ofNat ('0'.toNat + n) else Char.ofNat ('a'.toNat + (n - 10))

/-- A character as it stands in a string. -/
def escapeChar (c : Char) : List Char :=
  match c with
  | '"' => ['\\', '"']
  | '\\' => ['\\', '\\']
  | '\x08' => ['\\', 'b']
  | '\t' => ['\\', 't']
  | '\n' => ['\\', 'n']
  | '\x0c' => ['\\', 'f']
  | '\r' => ['\\', 'r']
  | c =>
    if c.toNat < 0x20 then ['\\', 'u', '0', '0', hexDigit (c.toNat / 16), hexDigit (c.toNat % 16)]
    else [c]

/-- A string between its quotes. -/
def quote (s : String) : List Char := '"' :: s.toList.flatMap escapeChar ++ ['"']

mutual

/-- The characters of a value. -/
def chars : Json → List Char
  | .null => "null".toList
  | .bool true => "true".toList
  | .bool false => "false".toList
  | .number s => s.toList
  | .text s => quote s
  | .list items => '[' :: itemChars items ++ [']']
  | .object fields => '\x7b' :: fieldChars fields ++ ['\x7d']

/-- The values of a list, with commas between them. -/
def itemChars : List Json → List Char
  | [] => []
  | [item] => item.chars
  | item :: rest => item.chars ++ ',' :: itemChars rest

/-- The fields of an object, with commas between them. -/
def fieldChars : List (String × Json) → List Char
  | [] => []
  | [(name, value)] => quote name ++ ':' :: value.chars
  | (name, value) :: rest => quote name ++ ':' :: value.chars ++ ',' :: fieldChars rest

end

/-- A value on one line. -/
def render (j : Json) : String := String.ofList j.chars

/-- The field of an object with a name. -/
def get? (j : Json) (name : String) : Option Json :=
  match j with
  | .object fields => (fields.find? (·.1 == name)).map (·.2)
  | _ => none

/-- An object with one more field at its end; other values are left as they are. -/
def addField (j : Json) (name : String) (value : Json) : Json :=
  match j with
  | .object fields => .object (fields ++ [(name, value)])
  | j => j

end Json

end Goban
