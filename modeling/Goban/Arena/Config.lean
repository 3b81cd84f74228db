import Goban.Game
import Goban.Search.Options

/-!
# Configuration of a run

A run plays games between two models, the evaluated one and a target, and counts the wins of both.
-/

namespace Goban

/-- What is to be played and where the results go. -/
structure Config where
  /-- The file of the model that is evaluated. -/
  evaluatedPath : String
  evaluatedDevice : String
  /-- The number of visits for each move of the evaluated model. -/
  evaluatedReadouts : Nat
  /-- The file of the model that it plays against. -/
  targetPath : String
  targetDevice : String
  targetReadouts : Nat
  /-- The number of games, which are played at the same time. -/
  parallelGames : Nat
  /-- The number of leaves of a search that are evaluated together. -/
  virtualLosses : Nat
  resignEnabled : Bool
  resignThreshold : Single
  untriedPenalty : Single
  /-- The seed of all players together; zero stands for one from the clock. -/
  seed : UInt64
  /-- The directory for the records of the games; none are saved if it is empty. -/
  recordDirectory : String
  /-- The table for the rows of the games; none are written if it is empty. -/
  table : String
  /-- The tag of the rows. -/
  tableTag : String
  /-- The directory of the files of all tables. -/
  tableRoot : String
  /-- The number of batches that a device may run at once. -/
  buffers : Nat
  /-- Whether the first game is reported move by move. -/
  verbose : Bool
deriving DecidableEq, Repr

namespace Config

/-- The usual configuration, which names no models. -/
def usual : Config where
  evaluatedPath := ""
  evaluatedDevice := ""
  evaluatedReadouts := 100
  targetPath := ""
  targetDevice := ""
  targetReadouts := 100
  parallelGames := 32
  virtualLosses := 8
  resignEnabled := true
  resignThreshold := ⟨0xbf7fbe77⟩
  untriedPenalty := ⟨0x40000000⟩
  seed := 0
  recordDirectory := ""
  table := ""
  tableTag := ""
  tableRoot := "tables"
  buffers := 1
  verbose := false

/-- The options of the players with so many visits for each move. -/
def playerOptions (c : Config) (readouts : Nat) : PlayerOptions :=
  { PlayerOptions.usual with
    readouts
    virtualLosses := c.virtualLosses
    untriedPenalty := c.untriedPenalty }

/-- What the players of a game agree on. The threshold of resignation is never above zero. -/
def gameOptions (c : Config) : GameOptions where
  resignEnabled := c.resignEnabled
  resignThreshold := -c.resignThreshold.abs
  komi := GameOptions.usualKomi

end Config

/-- Why there is no run. -/
inductive ArenaError where
  | invalidTable (text : String)
  | modelLoad (path reason : String)
  | noGames
  | noBuffers
  | noVirtualLosses
deriving DecidableEq, Repr

namespace ArenaError

/-- The text of an error. -/
def message : ArenaError → String
  | invalidTable s => s!"invalid table spec '{s}', expected 'project,instance,table'"
  | modelLoad path reason => s!"failed to load model '{path}': {reason}"
  | noGames => "parallel games must be positive"
  | noBuffers => "buffer count must be positive"
  | noVirtualLosses => "virtual losses must be positive"

end ArenaError

end Goban
