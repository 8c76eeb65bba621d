import Elementwise.Job.Phase
import Elementwise.Operand.Binding
import Elementwise.Sync.Gate

/-!
A job: one kernel applied to a range of indices by several workers that share the memory, the gate
and the deques. `Job.step` is one step of one worker; any order of steps is a run of the job.
-/

namespace Elementwise

/-- What does not change while a job runs. -/
structure Job where
  binding : Binding
  /-- What the kernel unwinds with at an index, if it gives no result there. -/
  unwinding : Nat → Option Payload := fun _ => none
  onBreach : BreachPolicy

/-- The beginning of a kernel call. -/
structure Call where
  worker : Nat
  index : Nat
deriving DecidableEq, Repr, Inhabited

/-- What the workers of a job share and change. -/
structure JobState where
  memory : Memory
  gate : Gate
  deques : Array Deque
  workers : Array Worker
  /-- The kernel calls in the order in which they began. -/
  calls : Array Call := #[]
  /-- The breach that ended the process. -/
  aborted : Option Breach := none
deriving Inhabited

namespace JobState

/-- The state before any worker has started: a deque and a worker for each range. -/
def initial (memory : Memory) (gate : Gate) (spans : List Span) : JobState where
  memory := memory
  gate := gate
  deques := (spans.map Deque.ofSpan).toArray
  workers := (spans.map fun _ => ({} : Worker)).toArray

def setPhase (s : JobState) (w : Nat) (worker : Worker) (phase : Phase) : JobState :=
  { s with workers := s.workers.setIfInBounds w { worker with phase } }

/-- Lets a worker begin a run at the gate, whatever became of an earlier run. -/
def start (s : JobState) (w : Nat) : JobState :=
  match s.workers[w]? with
  | some worker => s.setPhase w worker .atGate
  | none => s

def settle (s : JobState) (started : Nat) : JobState := { s with gate := s.gate.settle started }

def phase (s : JobState) (w : Nat) : Phase :=
  match s.workers[w]? with
  | some worker => worker.phase
  | none => .idle

def tally (s : JobState) (w : Nat) : Tally :=
  match s.workers[w]? with
  | some worker => worker.tally
  | none => {}

def shares (s : JobState) : List Share :=
  s.workers.toList.zipIdx.map fun (worker, id) => ⟨id, worker.tally⟩

/-- The number of indices that nobody has taken. -/
def untaken (s : JobState) : Nat :=
  s.deques.toList.foldr (fun deque total => deque.bounds.length + total) 0

/-- Whether there is a deque with the given number and nobody holds its lock. -/
def isAccessible (s : JobState) (q : Nat) : Bool :=
  match s.deques[q]? with
  | some deque => !deque.lock.isHeld
  | none => false

/-- Whether a worker can take a step. It cannot if it has not started, is done, or has to wait for
the gate or a lock, nor once the process has ended. -/
def isReady (s : JobState) (w : Nat) : Bool :=
  s.aborted.isNone &&
    match s.phase w with
    | .idle | .finished | .dead .. => false
    | .atGate => s.gate.wait?.isSome
    | .draining => s.isAccessible w
    | .sweeping peer _ => s.isAccessible peer
    | .holding .. | .calling .. | .storing .. => true

end JobState

namespace Job

/-- A worker finds a breach: the process ends, or the worker does. -/
def breach (job : Job) (s : JobState) (w : Nat) (worker : Worker) (cause : Breach) : JobState :=
  match job.onBreach with
  | .abort => { s with aborted := some cause }
  | .unwind => s.setPhase w worker (.dead none (.breach cause))

/-- A worker operates on a deque. Nothing changes while another holds the lock. -/
def operate (job : Job) (s : JobState) (w : Nat) (worker : Worker) (q : Nat) (access : Access) :
    JobState :=
  match s.deques[q]? with
  | none => s
  | some deque =>
      match deque.perform access with
      | (.returned (.index found), deque) =>
          let s := { s with deques := s.deques.setIfInBounds q deque }
          s.setPhase w worker (worker.phase.receive w s.workers.size found)
      | (.returned (.bounds _), _) => s
      | (.blocked, _) => s
      | (.breached cause, deque) =>
          let s := { s with deques := s.deques.setIfInBounds q deque }
          job.breach s w worker cause

/-- What one step of a worker does to the state. -/
def advance (job : Job) (s : JobState) (w : Nat) : JobState :=
  match s.workers[w]? with
  | none => s
  | some worker =>
      match worker.phase with
      | .idle | .finished | .dead .. => s
      | .atGate =>
          match s.gate.wait? with
          | none => s
          | some told => s.setPhase w worker (if told then .draining else .finished)
      | .draining => job.operate s w worker w .takeFront
      | .sweeping peer _ => job.operate s w worker peer .takeBack
      | .holding index origin =>
          let s := { s with calls := s.calls.push ⟨w, index⟩ }
          s.setPhase w worker (.calling index origin)
      | .calling index origin =>
          match job.unwinding index with
          | some cause => s.setPhase w worker (.dead (some index) cause)
          | none =>
              s.setPhase w worker (.storing index origin (job.binding.evaluate s.memory index))
      | .storing index origin bits =>
          let s := { s with memory := job.binding.scatter s.memory index bits }
          let worker := { worker with tally := worker.tally.add origin }
          s.setPhase w worker (.resume w s.workers.size origin)

/-- One step of a worker, if it can take one. -/
def step (job : Job) (s : JobState) (w : Nat) : Option JobState :=
  if s.isReady w then some (job.advance s w) else none

end Job

end Elementwise
