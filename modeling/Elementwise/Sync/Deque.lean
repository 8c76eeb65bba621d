import Elementwise.Range.Span
import Elementwise.Sync.Lock

/-!
The deque of a worker: the range of indices that nobody has taken yet, behind a lock. The owner
takes indices from the front, other workers from the back. An operation acquires the lock, reads the
bounds, writes them and releases the lock, so an index is handed out once.
-/

namespace Elementwise

inductive Access where
  | takeFront
  | takeBack
  | inspect
deriving DecidableEq, Repr

inductive Taken where
  | index (found : Option Nat)
  | bounds (span : Span)
deriving DecidableEq, Repr

def Access.apply : Access → Span → Taken × Span
  | takeFront, span => (.index span.takeFront.1, span.takeFront.2)
  | takeBack, span => (.index span.takeBack.1, span.takeBack.2)
  | inspect, span => (.bounds span, span)

/-- Untaken indices and the lock in front of them. -/
structure Deque where
  lock : Lock := {}
  bounds : Span
deriving DecidableEq, Repr, Inhabited

namespace Deque

def ofSpan (span : Span) : Deque := { bounds := span }

inductive Stage where
  | entering
  | reading
  | writing (seen : Span)
  | leaving (taken : Taken)
  | poisoning (observed : UInt32)
  | returned (taken : Taken)
  | raised (observed : UInt32)
deriving DecidableEq, Repr

/-- Whether the operation is between acquiring and releasing the lock. -/
def Stage.isInside : Stage → Bool
  | reading | writing _ | leaving _ => true
  | _ => false

/-- The stage behind a step of a lock call, which either comes back or is under way. -/
def Stage.ofLock (onReturn : Stage) (onRetry : Stage) : Lock.Stage → Stage
  | .returned => onReturn
  | .trying _ => onRetry
  | .poisoning observed => .poisoning observed
  | .raised observed => .raised observed

/-- One step of an operation: one compare-and-exchange, one read of the bounds, one write of the
bounds, or the store that poisons the lock. -/
def step (spurious : Bool) (access : Access) : Stage → Deque → Stage × Deque
  | .entering, d =>
      let (stage, lock) := d.lock.step spurious (.trying .acquire)
      (.ofLock .reading .entering stage, { d with lock })
  | .reading, d => (.writing d.bounds, d)
  | .writing seen, d =>
      let (taken, bounds) := access.apply seen
      (.leaving taken, { d with bounds })
  | .leaving taken, d =>
      let (stage, lock) := d.lock.step spurious (.trying .release)
      (.ofLock (.returned taken) (.leaving taken) stage, { d with lock })
  | .poisoning observed, d =>
      let (stage, lock) := d.lock.step spurious (.poisoning observed)
      (.ofLock .entering .entering stage, { d with lock })
  | stage, d => (stage, d)

def perform (access : Access) (d : Deque) : Attempt Taken × Deque :=
  match d.lock.perform .acquire with
  | (.returned _, lock) =>
      let (taken, bounds) := access.apply d.bounds
      match lock.perform .release with
      | (.returned _, lock) => (.returned taken, { lock, bounds })
      | (.blocked, lock) => (.blocked, { lock, bounds })
      | (.breached cause, lock) => (.breached cause, { lock, bounds })
  | (.blocked, lock) => (.blocked, { d with lock })
  | (.breached cause, lock) => (.breached cause, { d with lock })

/-- On a free lock an operation has its effect on the bounds and leaves the lock free. -/
@[simp] theorem perform_free (access : Access) (span : Span) :
    perform access ⟨⟨Lock.free⟩, span⟩ =
      (.returned (access.apply span).1, ⟨⟨Lock.free⟩, (access.apply span).2⟩) := rfl

/-- On a lock that stays held an operation waits for ever and changes nothing. -/
@[simp] theorem perform_held (access : Access) (span : Span) :
    perform access ⟨⟨Lock.held⟩, span⟩ = (.blocked, ⟨⟨Lock.held⟩, span⟩) := rfl

/-- On a poisoned lock an operation raises and changes nothing. -/
@[simp] theorem perform_poisoned (access : Access) (span : Span) :
    perform access ⟨⟨Lock.poisoned⟩, span⟩ =
      (.breached (.lockProtocol Lock.poisoned), ⟨⟨Lock.poisoned⟩, span⟩) := rfl

/-- What a client asks of a deque: an operation, a request to its lock, or up to a hundred takes
from one end until nothing is left. -/
inductive Request where
  | lock (request : Lock.Request)
  | access (access : Access)
  | drain (access : Access)
deriving DecidableEq, Repr

inductive Reply where
  | lock (reply : Lock.Reply)
  | taken (taken : Taken)
  | drained (indices : List Nat)
deriving DecidableEq, Repr

def drainLimit : Nat := 100

def drain (policy : BreachPolicy) (access : Access) : Nat → Deque → Answer (List Nat) × Deque
  | 0, d => (.value [], d)
  | limit + 1, d =>
      let (attempt, d) := d.perform access
      match attempt.answer policy with
      | .value (.index (some index)) =>
          let (answer, d) := drain policy access limit d
          (answer.map (index :: ·), d)
      | .value _ => (.value [], d)
      | .wouldBlock => (.wouldBlock, d)
      | .raised cause => (.raised cause, d)
      | .aborted cause => (.aborted cause, d)

def serve (policy : BreachPolicy) (request : Request) (d : Deque) : Answer Reply × Deque :=
  match request with
  | .lock request =>
      let (answer, lock) := d.lock.serve policy request
      (answer.map .lock, { d with lock })
  | .access access =>
      let (attempt, d) := d.perform access
      ((attempt.answer policy).map .taken, d)
  | .drain access =>
      let (answer, d) := drain policy access drainLimit d
      (answer.map .drained, d)

end Deque

end Elementwise
