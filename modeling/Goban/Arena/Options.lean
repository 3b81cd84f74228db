import Goban.Arena.Config
import Goban.CommandLine
import Goban.Single.Reader

/-!
# Options of a run

The command line names the two models and says how the games are played and where the results go.
-/

namespace Goban

/-- What a command line asks for. -/
structure Options where
  config : Config
  /-- The file for the summary, if one is wanted. -/
  summaryPath : Option String
deriving DecidableEq, Repr

namespace Options

/-! ## Values -/

/-- A text as a number of at most `limit`. A plus sign may stand in front. -/
def readCount (limit : Nat) (s : String) : Except ValueError Nat :=
  let digits := match s.toList with
    | '+' :: rest => rest
    | cs => cs
  match Text.natOfDigits? digits with
  | some n => if n ≤ limit then .ok n else .error .unreadable
  | none => .error .unreadable

/-- A text as a number below `2 ^ 32`. As the number may carry either sign, zero may be negative. -/
def readSmall (s : String) : Except ValueError Nat :=
  match s.toList with
  | '-' :: rest => if Text.natOfDigits? rest = some 0 then .ok 0 else .error .unreadable
  | _ => readCount (Nat.pow 2 32 - 1) s

/-- A text as a number below `2 ^ 64`. -/
def readLarge : String → Except ValueError Nat := readCount (Nat.pow 2 64 - 1)

def readSingle (s : String) : Except ValueError Single :=
  match Single.ofText? s with
  | some x => .ok x
  | none => .error .unreadable

/-- Of the words for truth values only `true` and `false` are admitted. -/
def readTruth (s : String) : Except ValueError Bool :=
  if s = "true" then .ok true else if s = "false" then .ok false else .error .refused

/-- Any text. -/
def readText (s : String) : Except ValueError String := .ok s

/-- The path of a file, which is not empty. -/
def readPath (s : String) : Except ValueError String :=
  if s.isEmpty then .error .refused else .ok s

/-! ## Options -/

/-- An option with a value. -/
def valued {σ α : Type} (name about : String) (read : String → Except ValueError α)
    (put : α → σ → σ) : CommandOption σ :=
  ⟨name, about, .value false fun s => put <$> read s⟩

/-- The options of the configuration. -/
def configOptions : List (CommandOption Config) := [
  valued "eval-model" "Path of the model being evaluated, uniform for the built-in model" readText
    fun v c => { c with evaluatedPath := v },
  valued "eval-device" "Device of the model being evaluated" readText
    fun v c => { c with evaluatedDevice := v },
  valued "num-eval-readouts" "Visits for each move of the model being evaluated" readSmall
    fun v c => { c with evaluatedReadouts := v },
  valued "target-model" "Path of the model to evaluate against" readText
    fun v c => { c with targetPath := v },
  valued "target-device" "Device of the model to evaluate against" readText
    fun v c => { c with targetDevice := v },
  valued "num-target-readouts" "Visits for each move of the model to evaluate against" readSmall
    fun v c => { c with targetReadouts := v },
  valued "parallel-games" "Number of games played concurrently" readLarge
    fun v c => { c with parallelGames := v },
  valued "virtual-losses" "Number of leaves of a search evaluated together" readSmall
    fun v c => { c with virtualLosses := v },
  valued "resign-enabled" "Whether players may resign, true or false" readTruth
    fun v c => { c with resignEnabled := v },
  ⟨"resign-threshold", "Expected outcome below which a player resigns",
    .value true fun s => (fun v c => { c with resignThreshold := v }) <$> readSingle s⟩,
  valued "value-init-penalty" "Penalty on the expected outcome of moves not yet tried" readSingle
    fun v c => { c with untriedPenalty := v },
  valued "seed" "Base random seed, 0 picks one from the clock" readLarge
    fun v c => { c with seed := .ofNat v },
  valued "sgf-dir" "Directory for records of the games, empty to skip writing them" readText
    fun v c => { c with recordDirectory := v },
  valued "output-bigtable" "Table to append rows to, project,instance,table" readText
    fun v c => { c with table := v },
  valued "bigtable-tag" "Tag of the rows" readText fun v c => { c with tableTag := v },
  valued "table-root" "Directory holding the files of tables" readPath
    fun v c => { c with tableRoot := v },
  valued "buffer-count" "Number of batches a device may run concurrently" readLarge
    fun v c => { c with buffers := v },
  ⟨"verbose", "Report the first game move by move", .switch fun c => { c with verbose := true }⟩]

/-- The options that have to be given. -/
def required : List String := ["eval-model", "target-model"]

/-- All options. -/
def options : List (CommandOption Options) :=
  configOptions.map (·.within fun change o => { o with config := change o.config }) ++
    [valued "summary-file" "Write the wins of both models to this file as JSON" readPath
      fun v o => { o with summaryPath := some v }]

/-- The configuration that a command line gives. -/
def readConfig (arguments : List String) : Except UsageError Config :=
  readCommandLine configOptions required Config.usual arguments

/-- What a command line asks for. -/
def read (arguments : List String) : Except UsageError Options :=
  readCommandLine options required ⟨Config.usual, none⟩ arguments

/-- How the program is used, an option on each line. -/
def usage : String :=
  let line (o : CommandOption Options) : String :=
    let value := match o.effect with
      | .switch _ => ""
      | .value _ _ => " VALUE"
    s!"  --{o.name}{value}\n      {o.about}"
  "Plays two Go models against each other with batched MCTS players\n\nOptions:\n"
    ++ "\n".intercalate (options.map line) ++ "\n  -h, --help\n      Print help\n"

end Options

end Goban
