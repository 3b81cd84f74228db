import Goban.Batch.Hub

/-!
# Metrics

What is measured of devices is reported under three names: how many calls of models there were, how
large they were, and how many games are live now. A device of which nothing was measured under a name
is not reported there.
-/

namespace Goban

/-- The values of one name for the devices of one name. -/
structure Metric where
  name : String
  device : String
  values : List Nat
deriving DecidableEq, Repr

namespace Metric

/-- The sizes of the calls on the devices of a name, the smallest first. -/
def batchSizes (journal : List Measurement) (device : String) : List Nat :=
  (journal.filterMap fun
    | .call d _ positions => if d = device then some positions.length else none
    | .liveGames _ _ => none).mergeSort

/-- The number of live games on the device of a name when it was changed last. -/
def liveGames? (journal : List Measurement) (device : String) : Option Nat :=
  journal.findSome? fun
    | .liveGames d games => if d = device then some games else none
    | .call _ _ _ => none

/-- The metrics of the devices of a name. -/
def ofDevice (journal : List Measurement) (device : String) : List Metric :=
  let sizes := batchSizes journal device
  let calls := if sizes.isEmpty then [] else
    [⟨"batching.batches", device, [sizes.length]⟩, ⟨"batching.batch_size", device, sizes⟩]
  calls ++ ((liveGames? journal device).map fun n => ⟨"batching.live_games", device, [n]⟩).toList

/-- The device that a measurement was made on. -/
def deviceOf : Measurement → String
  | .liveGames device _ => device
  | .call device _ _ => device

/-- All metrics of a journal that has the latest measurement first. -/
def ofJournal (journal : List Measurement) : List Metric :=
  (journal.map deviceOf).eraseDups.flatMap (ofDevice journal)

end Metric

end Goban
