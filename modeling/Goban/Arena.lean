import Goban.Arena.Config
import Goban.Arena.Notice
import Goban.Batch.Hub
import Goban.Game.Record
import Goban.Table.Rows

/-!
# The arena

The arena holds two contenders, the devices that their models are loaded on, and what has become of
the games so far: the wins of each contender, the records and the rows. Models on devices of the same
name share a device. An arena can be used for several runs, which are counted together.
-/

namespace Goban

/-- A model that takes part, with its wins. -/
structure Contender where
  /-- The number of its device. -/
  device : Nat
  key : ModelKey
  name : String
  options : PlayerOptions
  wins : Wins

/-- What tells the records of different processes and seconds apart. -/
structure Stamp where
  seconds : Nat
  process : Nat

/-- Two contenders and what has become of their games. -/
structure Arena where
  config : Config
  hub : Hub
  evaluated : Contender
  target : Contender
  /-- The number of the next finished game. -/
  gameNumber : Nat
  /-- The names and texts of the records of the games. -/
  records : List (String × String)
  tables : TableFiles
  /-- The time of the last look at the clock. -/
  stamp : Stamp

namespace Arena

/-- Loads the model of a contender on a device. -/
def loadContender (loader : Loader) (device : Nat) (path : String) (options : PlayerOptions)
    (devices : List Device) : Except ArenaError (Contender × List Device × Array Notice) :=
  let d := devices.getD device default
  match d.load loader path with
  | .error reason => .error (.modelLoad path reason)
  | .ok (key, loaded) =>
    let name := (loaded.modelName? key).getD ""
    let notices := if loaded.models.length = d.models.length then #[]
      else #[Notice.loaded name path d.name]
    .ok (⟨device, key, name, options, .none⟩, devices.set device loaded, notices)

/-- Makes the devices of a configuration and loads both models. The notices up to an error count. -/
def new (config : Config) (loader : Loader) (stamp : Stamp) :
    Array Notice × Except ArenaError Arena :=
  if config.buffers = 0 then (#[], .error .noBuffers)
  else if config.virtualLosses = 0 then (#[], .error .noVirtualLosses)
  else
    let shared := config.targetDevice = config.evaluatedDevice
    let devices := (if shared then [config.evaluatedDevice]
      else [config.evaluatedDevice, config.targetDevice]).map (Device.empty · config.buffers)
    match loadContender loader 0 config.evaluatedPath
        (config.playerOptions config.evaluatedReadouts) devices with
    | .error e => (#[], .error e)
    | .ok (evaluated, devices, first) =>
      match loadContender loader (if shared then 0 else 1) config.targetPath
          (config.playerOptions config.targetReadouts) devices with
      | .error e => (first, .error e)
      | .ok (target, devices, second) => (first ++ second, .ok {
          config, evaluated, target, stamp
          hub := .new devices
          gameNumber := 0
          records := []
          tables := .empty config.tableRoot })

/-- The counts of all devices together. -/
def stats (a : Arena) : BatchStats :=
  a.hub.devices.foldl (fun total d => total.merge d.stats) .none

/-- The names and wins of both contenders. -/
def results (a : Arena) : List (String × Wins) :=
  [(a.evaluated.name, a.evaluated.wins), (a.target.name, a.target.wins)]

/-- Whether the target plays black in a game; the colors alternate from game to game. -/
def targetIsBlack (game : Nat) : Bool := game % 2 == 1

/-- The contender that plays a color in a game. -/
def contender (a : Arena) (game : Nat) (color : Color) : Contender :=
  if targetIsBlack game == (color == .black) then a.target else a.evaluated

/-- The arena with another state of the contender that plays a color in a game. -/
def setContender (a : Arena) (game : Nat) (color : Color) (c : Contender) : Arena :=
  if targetIsBlack game == (color == .black) then { a with target := c }
  else { a with evaluated := c }

/-- The name of the record of a finished game. -/
def recordName (a : Arena) (g : Game) : String :=
  s!"{a.stamp.seconds}-{a.stamp.process}-{a.gameNumber}-{g.blackName}-{g.whiteName}"

/-- Takes in a finished game: the win is counted, and the record and the row are written if they are
wanted. The record says how many positions were evaluated for each player. -/
def takeIn (a : Arena) (table : Option TableSpec) (game : Nat) (g : Game)
    (blackSummary whiteSummary : String) : Except Fault Arena :=
  match g.winner with
  | none => .error (.gameWithoutWinner game)
  | some color => do
    let winner := a.contender game color
    let a := a.setContender game color { winner with wins := ← winner.wins.add g }
    let directory := a.config.recordDirectory
    let name := if directory.isEmpty then GameRow.notSaved else a.recordName g
    let g := if directory.isEmpty then g
      else (g.addComment s!"B inferences: {blackSummary}").addComment
        s!"W inferences: {whiteSummary}"
    let a ← if directory.isEmpty then pure a
      else do
        let text ← g.record true
        pure { a with records := a.records ++ [(name, text)] }
    let a := { a with gameNumber := a.gameNumber + 1 }
    match table with
    | none => return a
    | some spec =>
      let row := GameRow.ofGame g name a.config.tableTag a.stamp.seconds
      return { a with tables := a.tables.addRow spec row }

/-- The wins of both contenders and the counts of the devices. -/
def summary (a : Arena) : Json :=
  let part (c : Contender) : Json := c.wins.toJson.addField "name" (.text c.name)
  .object [
    ("eval", part a.evaluated),
    ("target", part a.target),
    ("games", .nat a.config.parallelGames),
    ("batches", .nat a.stats.batches),
    ("batch_size_average", .single a.stats.averageSize)]

end Arena

end Goban
