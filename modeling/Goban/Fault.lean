/-!
# Faults

A fault is a promise that a caller, or a model, has not kept: an index off the board, a player of a
game that is over, a model that gives too few answers. The work that meets one stops there. Some
faults have a text of their own; a bare condition has none.
-/

namespace Goban

/-- A broken promise, at which the work in hand stops. -/
inductive Fault where
  /-- A number that stands for no move. -/
  | moveIndex (index : Nat)
  /-- A row and a column that are not both on the board. -/
  | offBoard (row column : Nat)
  /-- A resignation where a place on the board is asked for. -/
  | resignationPlace
  /-- A character that stands for no point in the text of a board. -/
  | boardCharacter (c : Char)
  /-- A text of a board with a wrong number of points. -/
  | boardSize (points : Nat)
  /-- Wins are counted of finished games only. -/
  | unfinishedGame
  /-- The options of a player are outside their ranges. -/
  | playerOptions
  /-- The player's position is not the one of the game. -/
  | outOfStep
  /-- A model gave a wrong number of answers. -/
  | answerCount
  /-- A model gave a policy of a wrong length. -/
  | policyLength
  /-- The search played a move that the rules refuse, with the reason. -/
  | illegalSearchMove (reason : String)
  /-- A node was asked for a position it does not have yet. -/
  | unvisitedNode
  /-- An expanded node has no move to choose from. -/
  | noSearchMove
  /-- There is no move to suggest in a position that is over. -/
  | noMove
  /-- A virtual loss was taken back that had not been added. -/
  | virtualLossBalance
  /-- A player chose a move that the game refuses. -/
  | refusedMove (player move reason : String)
  /-- A player cannot follow the opponent's move. -/
  | lostOpponent (player move reason : String)
  /-- A queue of requests without a buffer to run them in. -/
  | noBuffers
  /-- No model is loaded under this key. -/
  | modelKey
  /-- Two models are registered for a game while one of them is in a game. -/
  | alreadyRegistered (a b : String)
  /-- Two models leave a game while one of them is in none. -/
  | notRegistered (a b : String)
  /-- A model was asked outside of a game. -/
  | outsideGame (model : String)
  /-- A game waits elsewhere that no live game of this device can be. -/
  | strayGame
  /-- A game came back to a device that counts no game as away. -/
  | awayBalance
  /-- A game ended on a device without live games. -/
  | noLiveGame
  /-- The counts of live, asking and absent games of a device do not fit together. -/
  | gameCounts (live asking away : Nat)
  /-- A device holds more requests than live games. -/
  | tooManyRequests (asking live : Nat)
  /-- A worker finished a game that has no winner. -/
  | gameWithoutWinner (worker : Nat)
  /-- The record of a game cannot be written. -/
  | unsavedRecord (name reason : String)
  /-- The row of a game cannot be written. -/
  | unsavedRow (name reason : String)
  /-- The work was not done within the given number of steps. -/
  | outOfSteps
deriving DecidableEq, Repr

namespace Fault

/-- The text of a fault, for those that have one. -/
def message? : Fault → Option String
  | moveIndex i => some s!"invalid coord index {i}"
  | offBoard r c => some s!"coord out of board: ({r}, {c})"
  | resignationPlace => some "resign has no SGF point"
  | boardCharacter c => some s!"unknown board char '{c}'"
  | boardSize n => some s!"expected 81 points, got {n}"
  | unfinishedGame => some "game is not over"
  | illegalSearchMove reason => some s!"illegal move in search tree: {reason}"
  | unvisitedNode => some "node was never visited"
  | noSearchMove => some "expanded node has no children"
  | noMove => some "expanded root has no children"
  | refusedMove player move reason => some s!"{player} played an illegal move {move}: {reason}"
  | lostOpponent player move reason => some s!"{player} can not follow move {move}: {reason}"
  | alreadyRegistered a b => some s!"models {a} and {b} are already registered in a live game"
  | notRegistered a b => some s!"models {a} and {b} are not registered in a live game"
  | outsideGame m => some s!"model {m} used outside of a registered game"
  | strayGame => some "game left a factory it is not registered in"
  | noLiveGame => some "end_game without a matching start_game"
  | gameCounts live asking away => some
      s!"inconsistent live game bookkeeping: {live} live, {asking} in flight, {away} away"
  | tooManyRequests asking live => some
      s!"more requests in flight ({asking}) than live games ({live})"
  | gameWithoutWinner w => some s!"thread {w} finished a game that is not over"
  | unsavedRecord name reason => some s!"failed to write SGF {name}: {reason}"
  | unsavedRow name reason => some s!"failed to write eval record of {name}: {reason}"
  | playerOptions | outOfStep | answerCount | policyLength | virtualLossBalance | noBuffers
  | modelKey | awayBalance | outOfSteps => none

end Fault

/-- Work that ends well has met no fault on the way. -/
theorem bind_eq_ok {ε α β : Type} {x : Except ε α} {f : α → Except ε β} {b : β}
    (h : x >>= f = .ok b) : ∃ a, x = .ok a ∧ f a = .ok b := by
  cases x with
  | error e => cases h
  | ok a => exact ⟨a, rfl, h⟩

end Goban
