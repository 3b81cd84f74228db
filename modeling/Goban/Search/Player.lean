import Goban.Call
import Goban.Game
import Goban.Inquiry
import Goban.Search.Copy
import Goban.Search.Expansion
import Goban.Search.Noise
import Goban.Text.Column

/-!
# Players

A player searches a tree whose root is the position of the game, and follows the moves of both sides.
To suggest a move it visits the root a number of times and takes the branch with the most visits, or
resigns if the outlook is too bad. When a move is made, the tree below it becomes the tree of the
player, with every node's branches in the opposite order; what lies beside it is dropped.

If the options ask for it, noise is mixed into the priors below the root, once for each root: when
the root is expanded, or when an expanded node becomes the root.
-/

namespace Goban

/-- A player of a game. -/
structure Player where
  /-- The name of the model that the player asks. -/
  modelName : String
  options : PlayerOptions
  noise : NoiseSource
  /-- The state of the generator behind the noise. -/
  noiseState : UInt64
  tree : Tree
  /-- The number of positions that were evaluated for the player. -/
  inferences : Nat

namespace Player

/-- A player that starts from a position. -/
def new (modelName : String) (options : PlayerOptions) (noise : NoiseSource)
    (position : Position) : Except Fault Player :=
  if options.isValid then .ok {
    modelName, options, noise
    noiseState := options.seed
    tree := .root position
    inferences := 0 }
  else .error .playerOptions

/-- The position at the root. -/
def position? (p : Player) : Option Position := p.tree.top.position

/-- The number of visits to the root. -/
def visits (p : Player) : Nat := p.tree.top.visits

/-- The mean outcome of the visits to the root, from black's view. -/
def mean (p : Player) : Single := p.tree.top.mean

/-- The mean outcome of the visits to the root, from the view of the side to play. -/
def outlook (p : Player) : Single :=
  match p.position? with
  | some position => p.mean * position.toPlay.sign
  | none => p.mean

/-! ## Noise below the root -/

/-- Whether the priors of so many branches are mixed with noise. -/
def wantsNoise (o : PlayerOptions) (branches : Nat) : Bool :=
  o.injectNoise && !o.noiseAlpha.equals .zero && !o.noiseShare.equals .zero && 2 ≤ branches

/-- Mixes noise into the priors below the root. -/
def mixNoise (p : Player) : Player :=
  match p.tree with
  | .node top bs =>
    if wantsNoise p.options bs.length then
      let (shares, state) := p.noise p.options.noiseAlpha bs.length p.noiseState
      let share := p.options.noiseShare
      let mix (prior x : Single) : Single := (.one - share) * prior + share * x
      { p with tree := .node top (Tree.mapPriors mix bs shares), noiseState := state }
    else p

/-! ## Searching -/

/-- Takes in the evaluation of a leaf, with noise if the leaf is the root. -/
def absorb (p : Player) (leaf : Tree.Leaf) (e : Evaluation) : Except Fault Player := do
  let unexpanded := !p.tree.top.expanded
  let p := { p with tree := ← p.tree.absorb leaf e }
  if unexpanded && leaf.path.isEmpty then return p.mixNoise else return p

/-- Takes in the evaluations of several leaves. -/
def absorbAll (p : Player) : List Tree.Leaf → List Evaluation → Except Fault Player
  | leaf :: leaves, e :: es => do absorbAll (← p.absorb leaf e) leaves es
  | _, _ => .ok p

/-- One step of the search: leaves are selected, evaluated in one call of the model and taken in. -/
def search (p : Player) : Inquiry Player := do
  let (leaves, tree) ← .ofExcept (p.tree.gather p.options p.options.virtualLosses [])
  let p := { p with tree }
  if leaves.isEmpty then return p
  let answers ← .evaluate (leaves.map (·.position))
  if answers.length = leaves.length then
    .ofExcept ({ p with inferences := p.inferences + leaves.length }.absorbAll leaves answers)
  else .fail .answerCount

/-- Searches until the root has been visited so often. Every step visits the root at least once. -/
def searchUntil (target : Nat) : (steps : Nat) → Player → Inquiry Player
  | 0, p => return p
  | steps + 1, p => do
    if p.visits < target then searchUntil target steps (← p.search) else return p

/-- The order of branches by visits, and by prior if the visits are equal. -/
def branchOrder (a b : Node) : Ordering :=
  (compare a.visits b.visits).then (a.prior.totalOrder b.prior)

/-- The move with the most visits, the last one walked of several. -/
def favourite? (p : Player) : Option Move := do
  let place ← lastGreatest branchOrder (p.tree.branches.map (·.2.top))
  (·.1) <$> p.tree.branches[place]?

/-- Visits the root so many times more and chooses a move: resignation if that is allowed and the
outlook is below the threshold of the game, else the move with the most visits. A root without
branches is searched once first, which gives it its branches. -/
def suggest (p : Player) (g : Game) (readouts : Nat) : Inquiry (Move × Player) := do
  if !(p.position?.any g.position.agrees) then Inquiry.fail .outOfStep
  else
    let p ← if p.tree.top.expanded then pure p else p.search
    let p ← searchUntil (p.visits + readouts) readouts p
    if g.options.resignEnabled && decide (p.outlook < g.options.resignThreshold) then
      return (.resign, p)
    match p.favourite? with
    | some m => return (m, p)
    | none => .fail .noMove

/-! ## Following the game -/

/-- The position of the root. -/
def rootPosition (p : Player) : Except Fault Position :=
  match p.position? with
  | some position => .ok position
  | none => .error .unvisitedNode

/-- The position after the move of a branch, worked out from the position of the root unless it is
known. -/
def positionAfter (p : Player) (m : Move) (below : Tree) : Except Fault Position :=
  match below.top.position with
  | some position => .ok position
  | none => do below.positionBelow (← p.rootPosition) m

/-- The player whose tree is one that was below the root, copied, with noise if its top was expanded
before. -/
def descend (p : Player) (below : Tree) (position : Position) : Player :=
  let p := { p with tree := (below.know position).transplant }
  if below.top.expanded then p.mixNoise else p

/-- Makes the branch of a move the tree of the player, or starts a new tree if there is none. -/
def moveRoot (m : Move) : Call Setback Player Unit := do
  let p ← get
  match p.tree.branches.find? (·.1 == m) with
  | some (_, below) =>
    let position ← Call.rely (p.positionAfter m below)
    set (p.descend below position)
  | none =>
    let root ← Call.rely p.rootPosition
    let position ← Call.allow (root.play m)
    set { p with tree := .root position }

/-- The comment on a move: the visits of the root and their mean outcome. -/
def comment (p : Player) : String := s!"N: {p.visits}, Q: {p.mean.fixed 4}"

/-- Makes a move in the game, and then moves the root. -/
def playMove (m : Move) : Call Setback (Game × Player) Unit := do
  let (_, p) ← get
  EStateM.adaptExcept .refused
    (Call.within Prod.fst (fun s g => (g, s.2)) (Game.makeMove m p.comment))
  if m ≠ .resign then Call.within Prod.snd (fun s p => (s.1, p)) (moveRoot m)

/-- Follows a move that the opponent has made in the game. -/
def followMove (m : Move) : Call Setback Player Unit :=
  if m = .resign then throw (.refused .resign) else moveRoot m

/-- The player whose root is the position after a move, or what keeps it from there. -/
def advance (p : Player) (m : Move) : Except Setback Player := (moveRoot m).outcome p

/-- The game as it is after an attempt to make a move, and the player who has made it. -/
def play (p : Player) (g : Game) (m : Move) : Game × Except Setback Player :=
  match (playMove m).run (g, p) with
  | .ok _ (g, p) => (g, .ok p)
  | .error setback (g, _) => (g, .error setback)

/-- The player who has followed a move of the opponent. -/
def follow (p : Player) (m : Move) : Except Setback Player := (followMove m).outcome p

/-! ## What a player says -/

/-- One line on a branch. -/
def branchText (m : Move) (n : Node) : String :=
  s!"{Text.right 6 m.vertex}: N {Text.right 5 (toString n.visits)} Q "
    ++ s!"{Text.right 7 (n.mean.fixed 4)} P {n.prior.fixed 4}"

/-- The state of the root, and the five branches with the most visits. -/
def describe (p : Player) : String :=
  let head := s!"{p.mean.fixed 4} ({p.visits} readouts), {p.inferences} inferences"
  let sorted := p.tree.branches.mergeSort fun a b => branchOrder b.2.top a.2.top != .gt
  "\n".intercalate (head :: (sorted.take 5).map fun (m, t) => branchText m t.top)

/-- The name of the model and the number of positions that it evaluated. -/
def summary (p : Player) : String := s!"{p.modelName}({p.inferences})"

end Player

end Goban
