import Goban.Model

/-!
# Inquiries

Searching means asking a model, again and again, and going on with its answers. An `Inquiry` is such
a piece of work with the questions left open: it is done, it has met a fault, or it asks for the
evaluations of some positions and goes on with whatever the answer is. So the same search can be run
against a model at hand (`answer`), or be one of many that wait for a batch.
-/

namespace Goban

/-- Work that asks for evaluations on its way. -/
inductive Inquiry (α : Type) where
  | done (result : α)
  | fail (fault : Fault)
  | ask (positions : List Position) (next : List Evaluation → Inquiry α)

namespace Inquiry

/-- Goes on with the result of an inquiry. -/
def bind (work : Inquiry α) (go : α → Inquiry β) : Inquiry β :=
  match work with
  | done a => go a
  | fail f => fail f
  | ask positions next => ask positions fun answer => (next answer).bind go

instance : Monad Inquiry where
  pure := done
  bind := bind

/-- Work that asks nothing. -/
def ofExcept : Except Fault α → Inquiry α
  | .ok a => done a
  | .error f => fail f

/-- Asks for evaluations. -/
def evaluate (positions : List Position) : Inquiry (List Evaluation) := ask positions done

/-- The questions that come up when a function answers them all, in order, and the outcome. -/
def answer (reply : List Position → List Evaluation) :
    Inquiry α → List (List Position) × Except Fault α
  | done a => ([], .ok a)
  | fail f => ([], .error f)
  | ask positions next =>
    let (asked, outcome) := answer reply (next (reply positions))
    (positions :: asked, outcome)

end Inquiry

end Goban
