import Goban.Json

/-!
# Reading JSON

`Json.parse?` reads one value with blanks around it and between its tokens. Numbers are kept as they
are written, and escaped characters of either width are decoded.
-/

namespace Goban.Json

/-- The rest of a text behind blanks. -/
def skipBlanks (s : List Char) : List Char :=
  s.dropWhile fun c => c == ' ' || c == '\n' || c == '\t' || c == '\r'

/-- The value of a digit in base sixteen. -/
def hexValue? (c : Char) : Option Nat :=
  if '0' ≤ c ∧ c ≤ '9' then some (c.toNat - '0'.toNat)
  else if 'a' ≤ c ∧ c ≤ 'f' then some (c.toNat - 'a'.toNat + 10)
  else if 'A' ≤ c ∧ c ≤ 'F' then some (c.toNat - 'A'.toNat + 10)
  else none

/-- The number written by four digits in base sixteen. -/
def hexUnit? (a b c d : Char) : Option Nat := do
  some ((((← hexValue? a) * 16 + (← hexValue? b)) * 16 + (← hexValue? c)) * 16 + (← hexValue? d))

/-- The character that stands behind a backslash, for the escapes of two characters. -/
def unescape? : Char → Option Char
  | '"' => some '"'
  | '\\' => some '\\'
  | '/' => some '/'
  | 'b' => some '\x08'
  | 't' => some '\t'
  | 'n' => some '\n'
  | 'f' => some '\x0c'
  | 'r' => some '\r'
  | _ => none

/-- The character of one unit, or of a pair of units above the basic plane. -/
def ofUnits? (high : Nat) (low : Option Nat) : Option Char :=
  match low with
  | none => if high < 0xd800 ∨ 0xdfff < high then some (Char.ofNat high) else none
  | some low =>
    if 0xd800 ≤ high ∧ high < 0xdc00 ∧ 0xdc00 ≤ low ∧ low < 0xe000 then
      some (Char.ofNat (0x10000 + (high - 0xd800) * 0x400 + (low - 0xdc00)))
    else none

/-- The characters of a string up to its closing quote, and the rest behind it. -/
def readQuoted : List Char → Option (List Char × List Char)
  | [] => none
  | '"' :: rest => some ([], rest)
  | '\\' :: 'u' :: a :: b :: c :: d :: '\\' :: 'u' :: e :: f :: g :: h :: rest => do
    let high ← hexUnit? a b c d
    if 0xd800 ≤ high ∧ high < 0xdc00 then
      let c ← ofUnits? high (some (← hexUnit? e f g h))
      let (value, rest) ← readQuoted rest
      some (c :: value, rest)
    else
      let c ← ofUnits? high none
      let (value, rest) ← readQuoted ('\\' :: 'u' :: e :: f :: g :: h :: rest)
      some (c :: value, rest)
  | '\\' :: 'u' :: a :: b :: c :: d :: rest => do
    let c ← ofUnits? (← hexUnit? a b c d) none
    let (value, rest) ← readQuoted rest
    some (c :: value, rest)
  | '\\' :: c :: rest => do
    let c ← unescape? c
    let (value, rest) ← readQuoted rest
    some (c :: value, rest)
  | c :: rest => do
    let (value, rest) ← readQuoted rest
    some (c :: value, rest)

/-- Whether a character may occur in a number. -/
def isNumeric (c : Char) : Bool :=
  c.isDigit || c == '-' || c == '+' || c == '.' || c == 'e' || c == 'E'

mutual

/-- A value at the start of a text, and the rest. The depth of the value is bounded by `fuel`. -/
def readValue (fuel : Nat) (s : List Char) : Option (Json × List Char) :=
  match fuel with
  | 0 => none
  | fuel + 1 =>
    match skipBlanks s with
    | 'n' :: 'u' :: 'l' :: 'l' :: rest => some (.null, rest)
    | 't' :: 'r' :: 'u' :: 'e' :: rest => some (.bool true, rest)
    | 'f' :: 'a' :: 'l' :: 's' :: 'e' :: rest => some (.bool false, rest)
    | '"' :: rest => do
      let (value, rest) ← readQuoted rest
      some (.text (String.ofList value), rest)
    | '[' :: rest =>
      match skipBlanks rest with
      | ']' :: rest => some (.list [], rest)
      | rest => do
        let (items, rest) ← readItems fuel rest
        some (.list items, rest)
    | '\x7b' :: rest =>
      match skipBlanks rest with
      | '\x7d' :: rest => some (.object [], rest)
      | rest => do
        let (fields, rest) ← readFields fuel rest
        some (.object fields, rest)
    | rest =>
      let digits := rest.takeWhile isNumeric
      if digits.isEmpty then none
      else some (.number (String.ofList digits), rest.dropWhile isNumeric)

/-- The values of a list up to its closing bracket, and the rest behind it. -/
def readItems (fuel : Nat) (s : List Char) : Option (List Json × List Char) :=
  match fuel with
  | 0 => none
  | fuel + 1 => do
    let (item, rest) ← readValue fuel s
    match skipBlanks rest with
    | ']' :: rest => some ([item], rest)
    | ',' :: rest =>
      let (items, rest) ← readItems fuel rest
      some (item :: items, rest)
    | _ => none

/-- The fields of an object up to its closing brace, and the rest behind it. -/
def readFields (fuel : Nat) (s : List Char) : Option (List (String × Json) × List Char) :=
  match fuel with
  | 0 => none
  | fuel + 1 =>
    match skipBlanks s with
    | '"' :: rest => do
      let (name, rest) ← readQuoted rest
      match skipBlanks rest with
      | ':' :: rest =>
        let (value, rest) ← readValue fuel rest
        match skipBlanks rest with
        | '\x7d' :: rest => some ([(String.ofList name, value)], rest)
        | ',' :: rest =>
          let (fields, rest) ← readFields fuel rest
          some ((String.ofList name, value) :: fields, rest)
        | _ => none
      | _ => none
    | _ => none

end

/-- The value that a text is written for. -/
def parse? (s : String) : Option Json := do
  let chars := s.toList
  let (value, rest) ← readValue (chars.length + 1) chars
  if (skipBlanks rest).isEmpty then some value else none

end Goban.Json
