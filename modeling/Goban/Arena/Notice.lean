import Goban.Batch.Stats
import Goban.Single.Decimal
import Goban.Wins

/-!
# Notices

What a run tells its user on the way.
-/

namespace Goban

/-- Something worth telling. -/
inductive Notice where
  | loaded (model path device : String)
  | evaluating (evaluated target : String) (games : Nat) (seed : UInt64)
  | report (text : String)
  | stopped (worker : Nat)
  | played (games : Nat) (stats : BatchStats)
  | wins (rows : List (String × Wins))
  | wroteSummary (path : String)

namespace Notice

/-- The text of a notice; the time that the games took is given. -/
def text (elapsed : String) : Notice → String
  | loaded model path device => s!"Loaded model {model} from '{path}' on device '{device}'"
  | evaluating evaluated target games seed =>
    s!"Evaluating {evaluated} against {target} in {games} parallel games, seed {seed}"
  | report text => text
  | stopped worker => s!"Thread {worker} stopping"
  | played games stats =>
    s!"Evaluated {games} games in {elapsed}s, {stats.batches} batches of "
      ++ s!"{stats.averageSize.fixed 2} positions on average"
  | wins rows => "\n" ++ Wins.table rows
  | wroteSummary path => s!"Wrote summary to {path}"

/-- What is told after a summary was written, if there is a path for it. -/
def farewell (summaryPath : Option String) : Array Notice :=
  (summaryPath.map fun path => #[wroteSummary path]).getD #[]

end Notice

end Goban
