/-!
# Command lines

A command line is a list of arguments that name options. `--name value` and `--name=value` give an
option a value; a switch is its name alone; `-h` and `--help` ask for help. No option may be given
twice. After `--` no option follows, so that whatever stands there is refused.

Reading goes from left to right. A value that stands as an argument of its own is not looked at
before the next option, or the end, is reached; so an unknown argument behind an unreadable value is
what is reported, while a value behind an equals sign is looked at at once. An argument that starts
with a hyphen is no value, unless it is a negative number and the option takes those.
-/

namespace Goban

/-- Why a command line is not usable. -/
inductive UsageError where
  /-- Help was asked for. -/
  | help
  /-- An argument that is neither an option nor the value of one. -/
  | unknownArgument (argument : String)
  /-- An option without its value. -/
  | missingValue (option : String)
  /-- A value that is not one of those an option admits. -/
  | refusedValue (option value : String)
  /-- A value that cannot be read. -/
  | unreadableValue (option value : String)
  /-- An option that is given twice. -/
  | repeatedOption (option : String)
  /-- A switch that is given a value. -/
  | unneededValue (option value : String)
  /-- An option that has to be given and is not. -/
  | missingOption (option : String)
deriving DecidableEq, Repr

namespace UsageError

/-- The text of an error. -/
def message : UsageError → String
  | help => "help requested"
  | unknownArgument a => s!"unexpected argument '{a}' found"
  | missingValue o => s!"a value is required for '--{o}' but none was supplied"
  | refusedValue o v => s!"invalid value '{v}' for '--{o}'"
  | unreadableValue o v => s!"invalid value '{v}' for '--{o}'"
  | repeatedOption o => s!"the argument '--{o}' cannot be used multiple times"
  | unneededValue o v => s!"unexpected value '{v}' for '--{o}' found; no more were expected"
  | missingOption o => s!"the required argument '--{o}' was not provided"

end UsageError

/-- Why a value does not fit an option. -/
inductive ValueError where
  | refused
  | unreadable
deriving DecidableEq, Repr

/-- What an option does to the settings. -/
inductive OptionEffect (σ : Type) where
  /-- It stands without a value. -/
  | switch (change : σ → σ)
  /-- It takes a value, which may be a negative number that stands as an argument of its own. -/
  | value (negative : Bool) (read : String → Except ValueError (σ → σ))

/-- An option of a command line that gives settings. -/
structure CommandOption (σ : Type) where
  name : String
  /-- What the option is for. -/
  about : String
  effect : OptionEffect σ

namespace CommandOption

variable {σ τ : Type}

/-- The option as one of larger settings. -/
def within (part : (σ → σ) → τ → τ) (o : CommandOption σ) : CommandOption τ where
  name := o.name
  about := o.about
  effect := match o.effect with
    | .switch change => .switch (part change)
    | .value negative read => .value negative fun v => part <$> read v

end CommandOption

/-- A command line that is being read. -/
structure CommandReading (σ : Type) where
  settings : σ
  /-- The names of the options that were applied. -/
  given : List String
  /-- The latest option, with its value once there is one, if it is still to be applied. -/
  pending : Option (CommandOption σ × Option String)
  /-- Whether options are over. -/
  closed : Bool

namespace CommandReading

variable {σ : Type}

/-- Whether a text that follows a hyphen is that of a number: digits, with at most one point, which
is not in front, and at most one exponent after it, which has digits. -/
def isNumber (s : List Char) : Bool :=
  let whole := s.takeWhile Char.isDigit
  let rest := s.dropWhile Char.isDigit
  let rest := match rest with
    | '.' :: rest => if whole.isEmpty then ['.'] else rest.dropWhile Char.isDigit
    | rest => rest
  match rest with
  | [] => true
  | 'e' :: exponent => s.head? != some 'e' && !exponent.isEmpty && exponent.all Char.isDigit
  | _ => false

/-- Applies an option, which was not applied before. -/
def apply (r : CommandReading σ) (name : String) (change : Except UsageError (σ → σ)) :
    Except UsageError (CommandReading σ) :=
  if r.given.contains name then .error (.repeatedOption name)
  else do return { r with settings := (← change) r.settings, given := name :: r.given }

/-- What a value for an option does. -/
def valueChange (o : CommandOption σ) (read : String → Except ValueError (σ → σ))
    (value : String) : Except UsageError (σ → σ) :=
  match read value with
  | .ok change => .ok change
  | .error .refused => .error (.refusedValue o.name value)
  | .error .unreadable => .error (.unreadableValue o.name value)

/-- Applies an option with its value. -/
def applyValue (r : CommandReading σ) (o : CommandOption σ) (value : String) :
    Except UsageError (CommandReading σ) :=
  match o.effect with
  | .switch _ => .error (.unneededValue o.name value)
  | .value _ read => r.apply o.name (valueChange o read value)

/-- Applies the latest option if that is still to be done. -/
def settle (r : CommandReading σ) : Except UsageError (CommandReading σ) :=
  match r.pending with
  | none => .ok r
  | some (o, none) => .error (.missingValue o.name)
  | some (o, some value) => { r with pending := none }.applyValue o value

/-- The latest option if its value is still to come. -/
def expecting? (r : CommandReading σ) : Option (CommandOption σ) :=
  match r.pending with
  | some (o, none) => some o
  | _ => none

/-- Reads the name of an option, with the value that is attached to it if there is one. -/
def readOption (options : List (CommandOption σ)) (r : CommandReading σ) (argument name : String)
    (attached : Option String) : Except UsageError (CommandReading σ) :=
  match options.find? (·.name == name), attached with
  | none, none => if name = "help" then do let _ ← r.settle; throw .help
    else .error (.unknownArgument argument)
  | none, some value => if name = "help" then .error (.unneededValue name value)
    else .error (.unknownArgument argument)
  | some o, some value =>
    match o.effect with
    | .switch _ => .error (.unneededValue name value)
    | .value _ _ => do (← r.settle).applyValue o value
  | some o, none => do
    let r ← r.settle
    match o.effect with
    | .switch change => r.apply name (.ok change)
    | .value _ _ => return { r with pending := some (o, none) }

/-- Reads an argument that is a value, or else nothing that is known. -/
def readValue (r : CommandReading σ) (argument : String) :
    Except UsageError (CommandReading σ) :=
  match r.expecting? with
  | some o => .ok { r with pending := some (o, some argument) }
  | none => .error (.unknownArgument argument)

/-- Whether the latest option takes a negative number as the next argument. -/
def takesNegative (r : CommandReading σ) : Bool :=
  match r.expecting? with
  | some o => match o.effect with
    | .value negative _ => negative
    | .switch _ => false
  | none => false

/-- Reads one more argument. -/
def readArgument (options : List (CommandOption σ)) (r : CommandReading σ) (argument : String) :
    Except UsageError (CommandReading σ) :=
  if r.closed then .error (.unknownArgument argument)
  else match argument.toList with
    | ['-', '-'] => .ok { r with closed := true }
    | '-' :: '-' :: rest =>
      let name := String.ofList (rest.takeWhile (· != '='))
      let attached := match rest.dropWhile (· != '=') with
        | [] => none
        | _ :: value => some (String.ofList value)
      r.readOption options argument name attached
    | '-' :: first :: rest =>
      if r.takesNegative && isNumber (first :: rest) then r.readValue argument
      else if first = 'h' then do let _ ← r.settle; throw .help
      else .error (.unknownArgument argument)
    | _ => r.readValue argument

end CommandReading

/-- The settings that a command line gives, from the usual ones; some options have to be given. -/
def readCommandLine {σ : Type} (options : List (CommandOption σ)) (required : List String)
    (usual : σ) (arguments : List String) : Except UsageError σ := do
  let r ← arguments.foldlM (CommandReading.readArgument options) ⟨usual, [], none, false⟩
  let r ← r.settle
  match required.find? fun name => !r.given.contains name with
  | some name => .error (.missingOption name)
  | none => .ok r.settings

end Goban
