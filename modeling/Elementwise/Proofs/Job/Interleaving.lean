import Elementwise.Proofs.Job.Effort
import Mathlib.Logic.Function.Basic

/-!
Jobs whose workers take small steps. An operation on a deque is no single step here: the exchange
that acquires the lock, reading, writing and the exchange that releases it come one by one, with
anything in between. Beside the job it is kept which exchanges succeeded.
-/

namespace Elementwise

namespace Deque.Stage

/-- The exchange that the next step makes. -/
def attempt? : Deque.Stage → Option Lock.Call
  | entering => some .acquire
  | leaving _ => some .release
  | _ => none

/-- The exchange that has succeeded on the way from one stage to the next. -/
def exchange? : Deque.Stage → Deque.Stage → Option Lock.Call
  | entering, reading => some .acquire
  | leaving _, returned _ => some .release
  | _, _ => none

end Deque.Stage

/-- A successful exchange on the lock of a deque. -/
structure Exchange where
  worker : Nat
  deque : Nat
  call : Lock.Call
deriving DecidableEq, Repr

/-- A job with the stage of the operation that each worker is about to make or has under way. -/
structure Interleaving where
  state : JobState
  stages : Nat → Deque.Stage := fun _ => .entering
  /-- The exchanges that succeeded, in the order in which they did. -/
  exchanges : List Exchange := []

namespace Interleaving

/-- What may happen next. An exchange that acquires a lock may fail for no reason. -/
inductive Event where
  | start (worker : Nat)
  | settle (started : Nat)
  | step (worker : Nat) (spurious : Bool)
deriving DecidableEq, Repr

/-- Goes on behind a step of an operation. When the operation has come back the worker goes on with
the answer, or with the breach it has raised. -/
def resume (job : Job) (v : Interleaving) (w : Nat) (worker : Worker) (s : JobState) :
    Deque.Stage → Interleaving
  | .returned (.index found) =>
      { v with
        state := s.setPhase w worker (worker.phase.receive w s.workers.size found)
        stages := Function.update v.stages w .entering }
  | .raised observed =>
      { v with
        state := job.breach s w worker (.lockProtocol observed)
        stages := Function.update v.stages w .entering }
  | stage => { v with state := s, stages := Function.update v.stages w stage }

/-- A worker takes a small step of its operation on a deque. -/
def operate (job : Job) (v : Interleaving) (w : Nat) (worker : Worker) (q : Nat) (access : Access)
    (spurious : Bool) : Option Interleaving :=
  match v.state.deques[q]? with
  | none => none
  | some deque =>
      let (stage, deque) := deque.step spurious access (v.stages w)
      let s := { v.state with deques := v.state.deques.setIfInBounds q deque }
      let succeeded := ((v.stages w).exchange? stage).map fun call => ⟨w, q, call⟩
      some (resume job { v with exchanges := v.exchanges ++ succeeded.toList } w worker s stage)

/-- A step of a worker. What is no operation on a deque is a step of the job as it is. -/
def step (job : Job) (v : Interleaving) (w : Nat) (spurious : Bool) : Option Interleaving :=
  match v.state.workers[w]? with
  | none => none
  | some worker =>
      match worker.phase.access? w with
      | none => (job.step v.state w).map fun s => { v with state := s }
      | some (q, access) =>
          if v.state.aborted.isSome then none else v.operate job w worker q access spurious

def occur (job : Job) (v : Interleaving) : Event → Option Interleaving
  | .start w =>
      if (v.state.phase w).isRunning then none else some { v with state := v.state.start w }
  | .settle started => some { v with state := v.state.settle started }
  | .step w spurious => v.step job w spurious

def follow (job : Job) : List Event → Interleaving → Option Interleaving
  | [], v => some v
  | event :: rest, v => (v.occur job event).bind (follow job rest)

theorem follow_append (job : Job) (events later : List Event) (v : Interleaving) :
    follow job (events ++ later) v = (follow job events v).bind (follow job later) := by
  induction events generalizing v with
  | nil => rfl
  | cons event rest ih =>
      rw [List.cons_append, follow, follow, Option.bind_assoc]
      exact congrArg _ (funext ih)

/-- The deque that a worker is inside of, between acquiring and releasing its lock. -/
def inside? (v : Interleaving) (w : Nat) : Option Nat :=
  if (v.stages w).isInside then ((v.state.phase w).access? w).map Prod.fst else none

/-- The worker has acquired the lock of the deque and not released it. -/
def Holds (v : Interleaving) (w q : Nat) : Prop :=
  v.exchanges.count ⟨w, q, .release⟩ < v.exchanges.count ⟨w, q, .acquire⟩

/-- The exchange that the next step of a worker makes. -/
def attempt? (v : Interleaving) (w : Nat) : Option Exchange :=
  ((v.state.phase w).access? w).bind fun (q, _) =>
    (v.stages w).attempt?.map fun call => ⟨w, q, call⟩

end Interleaving

/-- The deque as it is when nobody is inside. -/
def Deque.freed (deque : Deque) : Deque := { deque with lock := ⟨Lock.free⟩ }

namespace JobState

/-- The job with all its locks free. -/
def freed (s : JobState) : JobState := { s with deques := s.deques.map Deque.freed }

/-- A change of a job that a worker only notices in an operation on a deque. -/
structure Unseen (w : Nat) (f : JobState → JobState) : Prop where
  worker : ∀ s, (f s).workers[w]? = s.workers[w]?
  size : ∀ s, (f s).workers.size = s.workers.size
  gate : ∀ s, (f s).gate = s.gate
  aborted : ∀ s, (f s).aborted = s.aborted
  memory : ∀ s memory, f { s with memory } = { f s with memory }
  calls : ∀ s calls, f { s with calls } = { f s with calls }
  setPhase : ∀ s worker phase, f (s.setPhase w worker phase) = (f s).setPhase w worker phase

variable {s : JobState}

namespace Unseen

variable {w : Nat} {f : JobState → JobState}

theorem phase_eq (h : Unseen w f) (s : JobState) : (f s).phase w = s.phase w := by
  rw [phase, phase, h.worker]

theorem start (h : Unseen w f) (s : JobState) : f (s.start w) = (f s).start w := by
  rw [JobState.start, JobState.start, h.worker]
  split
  · exact h.setPhase ..
  · rfl

end Unseen

theorem unseen_deques (w : Nat) (deques : Array Deque) : Unseen w fun s => { s with deques } := by
  constructor
  all_goals intros; rfl

theorem unseen_freed (w : Nat) : Unseen w freed := by
  constructor
  all_goals intros; rfl

theorem unbroken_freed (haborted : s.aborted = none) : s.freed.Unbroken := by
  constructor
  · intro deque hdeque
    obtain ⟨before, -, rfl⟩ := Array.mem_map.mp hdeque
    rfl
  · exact haborted

theorem fit_freed : s.freed.Fit ↔ s.Fit := by
  have hsize : s.freed.deques.size = s.deques.size := Array.size_map
  constructor
  · exact fun h => ⟨hsize.symm.trans h.sizes, h.peers⟩
  · exact fun h => ⟨hsize.trans h.sizes, h.peers⟩

end JobState

namespace Job

variable {job : Job} {s s' : JobState} {w : Nat}

theorem isReady_of_unseen {f : JobState → JobState} (hf : JobState.Unseen w f)
    (hquiet : (s.phase w).access? w = none) : (f s).isReady w = s.isReady w := by
  rw [JobState.isReady, JobState.isReady, hf.phase_eq, hf.aborted, hf.gate]
  cases hcase : s.phase w with
  | draining | sweeping =>
      rw [hcase] at hquiet
      cases hquiet
  | _ => rfl

theorem advance_of_unseen {f : JobState → JobState} (hf : JobState.Unseen w f)
    (hquiet : (s.phase w).access? w = none) : job.advance (f s) w = f (job.advance s w) := by
  have hmemory : (f s).memory = s.memory := (congrArg JobState.memory (hf.memory s s.memory) :)
  have hcalls : (f s).calls = s.calls := (congrArg JobState.calls (hf.calls s s.calls) :)
  rcases hworker : s.workers[w]? with - | worker
  · simp [advance, hf.worker, hworker]
  · rw [JobState.phase_eq hworker] at hquiet
    cases hphase : worker.phase with
    | draining | sweeping =>
        rw [hphase] at hquiet
        cases hquiet
    | idle | finished | dead => simp [advance, hf.worker, hworker, hphase]
    | atGate =>
        rcases htold : s.gate.wait? with - | told
        · simp [advance, hf.worker, hf.gate, hworker, hphase, htold]
        · simp [advance, hf.worker, hf.gate, hworker, hphase, htold, hf.setPhase]
    | holding index origin =>
        have hpush := hf.calls s (s.calls.push ⟨w, index⟩)
        simp [advance, hf.worker, hworker, hphase, hcalls, hf.setPhase, hpush]
    | calling index origin =>
        rcases hcause : job.unwinding index with - | cause
        · simp [advance, hf.worker, hworker, hphase, hcause, hmemory, hf.setPhase]
        · simp [advance, hf.worker, hworker, hphase, hcause, hf.setPhase]
    | storing index origin bits =>
        have hwrite := hf.memory s (job.binding.scatter s.memory index bits)
        simp [advance, hf.worker, hf.size, hworker, hphase, hmemory, hf.setPhase, hwrite]

theorem step_of_unseen {f : JobState → JobState} (hf : JobState.Unseen w f)
    (hquiet : (s.phase w).access? w = none) : job.step (f s) w = (job.step s w).map f := by
  rw [step, step, isReady_of_unseen hf hquiet, advance_of_unseen hf hquiet]
  split
  · rfl
  · rfl

/-- A step that is no operation leaves the deques alone, and is one of the moves of a job with free
locks. -/
theorem move_of_quiet (hquiet : (s.phase w).access? w = none) (haborted : s.aborted = none)
    (hstep : job.step s w = some s') :
    s'.deques = s.deques ∧ ∃ deed, Move job s.freed w deed s'.freed := by
  constructor
  · have heq : job.step s w = (job.step s w).map fun t => { t with deques := s.deques } :=
      step_of_unseen (JobState.unseen_deques w s.deques) hquiet
    rw [hstep, Option.map_some, Option.some.injEq] at heq
    rw [heq]
  · have hfreed : job.step s.freed w = some s'.freed := by
      rw [step_of_unseen (JobState.unseen_freed w) hquiet, hstep]
      rfl
    exact ⟨_, move_of_step (JobState.unbroken_freed haborted).unheld hfreed⟩

end Job

end Elementwise
