import Elementwise.Failure
import Elementwise.Report.Basic
import Elementwise.Sync.Deque

/-!
The course of one worker. It waits at the gate, takes indices from the front of its own deque until
none is left, and then sweeps over the other deques in ascending order, taking one index from the
back of each. A sweep that finds nothing ends it. Between taking an index and the next operation on
a deque it calls the kernel: the call begins, its inputs are read, its result is written and the
element is counted.
-/

namespace Elementwise

/-- Where a worker got an index from: its own deque, or the deque of another worker. -/
inductive Origin where
  | own
  | peer (worker : Nat)
deriving DecidableEq, Repr

/-- How far a worker has come. A worker that died in a kernel call still holds the index of the
call. -/
inductive Phase where
  | idle
  | atGate
  | draining
  | sweeping (peer : Nat) (found : Bool)
  | holding (index : Nat) (origin : Origin)
  | calling (index : Nat) (origin : Origin)
  | storing (index : Nat) (origin : Origin) (bits : UInt64)
  | finished
  | dead (held : Option Nat) (cause : Payload)
deriving DecidableEq, Repr, Inhabited

namespace Phase

/-- Whether the worker has started and its run is not over. -/
def isRunning : Phase → Bool
  | idle | finished | dead .. => false
  | _ => true

def isOver : Phase → Bool
  | finished | dead .. => true
  | _ => false

/-- What ended the worker's run, if it did not end well. -/
def payload? : Phase → Option Payload
  | dead _ cause => some cause
  | _ => none

/-- The operation on a deque that the worker does next, with the number of the deque. -/
def access? (self : Nat) : Phase → Option (Nat × Access)
  | draining => some (self, .takeFront)
  | sweeping peer _ => some (peer, .takeBack)
  | _ => none

/-- Goes on with the sweep at `peer`, or at the peer behind it if that is the worker itself. At the
end of a sweep that found something the next one begins; otherwise the worker is finished. -/
def sweepFrom (self count peer : Nat) (found : Bool) : Phase :=
  let next := if peer = self then peer + 1 else peer
  if next < count then sweeping next found
  else if found then sweeping (if self = 0 then 1 else 0) false
  else finished

/-- What the worker does with the answer of a deque. -/
def receive (self count : Nat) : Phase → Option Nat → Phase
  | draining, some index => holding index .own
  | draining, none => sweepFrom self count 0 false
  | sweeping peer _, some index => holding index (.peer peer)
  | sweeping peer found, none => sweepFrom self count (peer + 1) found
  | phase, _ => phase

def resume (self count : Nat) : Origin → Phase
  | .own => draining
  | .peer peer => sweepFrom self count (peer + 1) true

end Phase

def Tally.add (t : Tally) : Origin → Tally
  | .own => t.addOwn
  | .peer _ => t.addStolen

/-- A worker: how far it has come, and its counters, which outlive a run. -/
structure Worker where
  phase : Phase := .idle
  tally : Tally := {}
deriving DecidableEq, Repr, Inhabited

end Elementwise
