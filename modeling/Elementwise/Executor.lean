import Elementwise.Job.Script
import Elementwise.Launch.Launcher
import Elementwise.Range.Partition

/-!
Applying a kernel to every index of a range: the range is split, a worker is launched for each part,
and when all of them have been joined the outcome is drawn from what they left behind.
-/

namespace Elementwise

inductive Outcome where
  | returned (report : Report)
  | failed (cause : Failure)
  | unwound (cause : Payload)
  | aborted (cause : Breach)
  | stuck
deriving DecidableEq, Repr, Inhabited

/-- Settings together with a launcher and a host to run on. -/
structure Executor where
  settings : Settings
  launcher : Launcher
  host : Host

namespace Executor

/-- An executor with the launcher that the settings ask for. The host needs threads, and a
configured number of workers must not be zero. -/
def ofSettings? (settings : Settings) (host : Host) : Except Failure Executor :=
  match host.threadless with
  | some target => .error (.unsupportedPlatform target)
  | none =>
      if settings.workers = some 0 then .error (.rejected .zeroWorkers)
      else .ok ⟨settings, .ofSettings settings, host⟩

def withLauncher? (settings : Settings) (launcher : Launcher) (host : Host) :
    Except Failure Executor :=
  if settings.workers = some 0 then .error (.rejected .zeroWorkers)
  else .ok ⟨settings, launcher, host⟩

/-- The number of workers that a call asks for: the configured one, or one for each core. -/
def requestedWorkers (e : Executor) : Nat := e.settings.workers.getD e.host.cores

def partition (e : Executor) (elements : Nat) : Partition := .split elements e.requestedWorkers

end Executor

/-- A call: a kernel, where its operands are, and how many indices it covers. `unwinding` and `hooks`
say at which indices the kernel gives no result and what else happens during its calls. -/
structure Request where
  kernel : Kernel
  operands : Operands
  elements : Nat
  unwinding : Nat → Option Payload := fun _ => none
  hooks : Hooks := []

/-- What a call leaves behind: its outcome, and the session of its job. -/
structure Run where
  outcome : Outcome
  session : Session
deriving Inhabited

/-- What a launch works on: the state of a job, and whatever is noted beside it. -/
class HoldsJob (τ : Type) where
  ofState : JobState → τ
  state : τ → JobState

instance : HoldsJob Session where
  ofState state := { state }
  state := Session.state

namespace Executor

def job (e : Executor) (request : Request) (binding : Binding) : Job where
  binding := binding
  unwinding := request.unwinding
  onBreach := e.settings.onBreach

def gate (e : Executor) (p : Partition) : Gate := ⟨p.workers, e.settings.onSpawnFailure, .pending⟩

def crew (job : Job) (hooks : Hooks) : Crew Session where
  begin w s := { s with state := s.state.start w }
  settle started s := { s with state := s.state.settle started }
  finish w s :=
    let s := s.finish job hooks w
    let payload := (s.state.phase w).payload?
    (s, payload)

def report (e : Executor) (p : Partition) (spawned : Nat) (s : JobState) : Report where
  elements := p.elements
  chunk := p.chunk
  requestedWorkers := e.requestedWorkers
  spawnedWorkers := spawned
  shares := s.shares

/-- Checks that the workers together completed every element once. -/
def verify (e : Executor) (report : Report) : Outcome :=
  if e.settings.verifyCompletion ∧ report.completed ≠ report.elements then
    let cause := Breach.consistency report.elements report.completed
    match e.settings.onBreach with
    | .abort => .aborted cause
    | .unwind => .unwound (.breach cause)
  else .returned report

/-- The outcome of a call once its launch is over. If the launch itself unwound, so does the call.
Else a payload comes first, the first one that was reported. A worker that could not be started
makes the call fail if the gate was abandoned for it. Otherwise the counters are checked. -/
def conclude (e : Executor) (p : Partition) (ending : Except Payload LaunchRecord) (s : JobState) :
    Outcome :=
  match s.aborted with
  | some cause => .aborted cause
  | none =>
      if s.workers.any fun worker => worker.phase.isRunning then .stuck
      else
        match ending with
        | .error cause => .unwound cause
        | .ok record =>
            match record.payloads with
            | (_, cause) :: _ => .unwound cause
            | [] =>
                match record.refused with
                | none => e.verify (e.report p record.spawned s)
                | some worker =>
                    if s.gate.isOpen then e.verify (e.report p record.spawned s)
                    else .failed (.threadSpawn worker p.workers)

/-- Makes a call whose workers are launched by the given function. Operands are checked against the
kernel before anything else; a call over no index returns without a worker. -/
def call {m : Type → Type} [Monad m] {τ : Type} [HoldsJob τ] (e : Executor) (memory : Memory)
    (request : Request)
    (launch : Job → Partition → τ → m (Except Payload LaunchRecord × τ)) : m (Outcome × τ) :=
  let p := e.partition request.elements
  let idle : τ := HoldsJob.ofState (Session.idle memory).state
  match Binding.ofOperands? request.kernel request.operands with
  | .error reason => pure (.failed (.rejected reason), idle)
  | .ok binding =>
      if p.workers = 0 then pure (.returned (.empty e.requestedWorkers), idle)
      else do
        let opening := HoldsJob.ofState (.initial memory (e.gate p) p.ranges)
        let (ending, left) ← launch (e.job request binding) p opening
        return (e.conclude p ending (HoldsJob.state left), left)

/-- Makes a call with the launcher of the executor. -/
def run (e : Executor) (memory : Memory) (request : Request) : Run :=
  let (outcome, session) : Outcome × Session := Id.run <| e.call memory request fun job p session =>
    return (crew job request.hooks).run (e.launcher.plan e.host p.workers) session
  ⟨outcome, session⟩

end Executor

end Elementwise
