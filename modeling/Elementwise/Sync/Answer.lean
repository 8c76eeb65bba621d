import Elementwise.Failure
import Elementwise.Settings.Basic

/-!
How an operation on something shared ends, before and after the breach policy has its say.
-/

namespace Elementwise

/-- How an operation ends that runs with nobody else around: it returns, it would wait for ever, or
it finds a breach. -/
inductive Attempt (α : Type) where
  | returned (value : α)
  | blocked
  | breached (cause : Breach)
deriving DecidableEq, Repr

/-- What the caller of an operation sees: a value, a wait without end, a breach that unwinds through
it, or a breach that ends the process. -/
inductive Answer (α : Type) where
  | value (value : α)
  | wouldBlock
  | raised (cause : Breach)
  | aborted (cause : Breach)
deriving DecidableEq, Repr

def Breach.raise {α : Type} (policy : BreachPolicy) (cause : Breach) : Answer α :=
  match policy with
  | .abort => .aborted cause
  | .unwind => .raised cause

def Attempt.answer {α : Type} (policy : BreachPolicy) : Attempt α → Answer α
  | returned value => .value value
  | blocked => .wouldBlock
  | breached cause => cause.raise policy

namespace Answer

def map {α β : Type} (f : α → β) : Answer α → Answer β
  | value found => value (f found)
  | wouldBlock => wouldBlock
  | raised cause => raised cause
  | aborted cause => aborted cause

/-- Makes one request after another and records each answer with the state behind it. A breach that
ends the process leaves no record. -/
def session {σ ρ α : Type} (serve : ρ → σ → Answer α × σ) :
    List ρ → σ → Except Breach (List (Answer α × σ))
  | [], _ => .ok []
  | request :: rest, state =>
      match serve request state with
      | (aborted cause, _) => .error cause
      | (answer, next) => (session serve rest next).map ((answer, next) :: ·)

end Answer

end Elementwise
