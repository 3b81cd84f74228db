import Goban.Path
import Goban.Position

/-!
# Models

A model looks at a batch of positions and gives for each a policy, one weight for each move, and a
value between minus one and one from the view of the side to play. It is a function of the batch;
that it answers as often as it is asked is expected of it and checked by its callers.

Models are named after their files. The uniform model is built in: it has no preference among moves
and expects a draw everywhere.
-/

namespace Goban

/-- What a model says about a position. -/
structure Evaluation where
  /-- A weight for each move by its number, pass last. -/
  policy : List Single
  /-- The expected outcome for the side to play. -/
  value : Single
deriving DecidableEq, Repr

/-- A named function from batches of positions to evaluations. -/
structure Model where
  name : String
  evaluate : List Position → List Evaluation

namespace Model

/-- The name of the model in a file: the file's name without its extension. -/
def nameOfPath (path : String) : String :=
  match Path.fileName? path with
  | some name => String.ofList (Path.stem name)
  | none => "model"

/-- The path that selects the built-in model. -/
def uniformPath : String := "uniform"

/-- The built-in model without preferences. -/
def uniform : Model where
  name := uniformPath
  evaluate positions :=
    let policy := List.replicate policySize (.one / .ofNat policySize)
    positions.map fun _ => ⟨policy, .zero⟩

end Model

end Goban
