import Elementwise.Job.Basic

/-!
Scripts that a client plays on a job, one action after another on a single thread. An action may run
a worker to its end. A script can also be hung on a kernel call by the number of the call: it is
played while the call is under way, so that one worker's run may be nested inside another's.
-/

namespace Elementwise

/-- What a client does to a job. -/
inductive Action where
  | gate (request : Gate.Request)
  | workerCount
  | run (worker : Nat)
  | counters (worker : Nat)
  | access (deque : Nat) (access : Access)
  | lock (deque : Nat) (call : Lock.Call)
  | lockState (deque : Nat)
deriving DecidableEq, Repr

inductive ActionResult where
  | flag (value : Bool)
  | number (value : Nat)
  | taken (taken : Taken)
  | done
  | lockState (locked poisoned : Bool)
  | share (share : Share)
  | unwound (cause : Payload) (share : Share)
  | raised (cause : Breach)
  | busy
  | wouldBlock
deriving DecidableEq, Repr

/-- Scripts by the number of the kernel call that they hang on. -/
abbrev Hooks := List (Nat × List Action)

/-- The actions that hang on a call, script after script. -/
def Hooks.at (hooks : Hooks) (call : Nat) : List Action :=
  hooks.flatMap fun hook => if hook.1 = call then hook.2 else []

/-- What is under way: a script, or a run of a worker, each with the kernel call it hangs on. -/
inductive Frame where
  | playing (call : Option Nat) (actions : List Action)
  | running (call : Option Nat) (worker : Nat)
deriving Repr

/-- A job under a script: its state, and the results of actions in the order in which they came
back, each with the kernel call that its action hangs on. -/
structure Session where
  state : JobState
  results : Array (Option Nat × ActionResult) := #[]
deriving Inhabited

namespace Session

/-- The session of a job that was never set up: the memory as it is, and no worker. -/
def idle (memory : Memory) : Session where
  state := .initial memory ⟨0, .abort, .pending⟩ []

def record (s : Session) (call : Option Nat) (result : ActionResult) : Session :=
  { s with results := s.results.push (call, result) }

def shareOf (s : JobState) (w : Nat) : Share := ⟨w, s.tally w⟩

def runResult (s : JobState) (w : Nat) : ActionResult :=
  match (s.phase w).payload? with
  | some cause => .unwound cause (shareOf s w)
  | none => .share (shareOf s w)

/-- Whether a worker that runs alone might wait for ever. -/
def mightBlock (s : JobState) : Bool :=
  s.gate.wait?.isNone || s.deques.any fun deque => deque.lock.isHeld

/-- The result of an answer. A breach that ends the process leaves no result. -/
def ofAnswer {α : Type} (result : α → ActionResult) : Answer α → ActionResult
  | .value found => result found
  | .wouldBlock => .wouldBlock
  | .raised cause | .aborted cause => .raised cause

def abortOf {α : Type} : Answer α → Option Breach
  | .aborted cause => some cause
  | _ => none

def serve (job : Job) (s : JobState) : Action → ActionResult × JobState
  | .gate request =>
      let (answer, gate) := s.gate.serve request
      (ofAnswer .flag answer, { s with gate })
  | .workerCount => (.number s.deques.size, s)
  | .run _ => (.wouldBlock, s)
  | .counters w => (if (s.phase w).isRunning then .busy else .share (shareOf s w), s)
  | .access q access =>
      match s.deques[q]? with
      | none => (.wouldBlock, s)
      | some deque =>
          let (attempt, deque) := deque.perform access
          let answer := attempt.answer job.onBreach
          (ofAnswer .taken answer,
            { s with deques := s.deques.setIfInBounds q deque, aborted := abortOf answer })
  | .lock q call =>
      match s.deques[q]? with
      | none => (.wouldBlock, s)
      | some deque =>
          let (attempt, lock) := deque.lock.perform call
          let answer := attempt.answer job.onBreach
          (ofAnswer (fun _ => .done) answer,
            { s with
              deques := s.deques.setIfInBounds q { deque with lock }
              aborted := abortOf answer })
  | .lockState q =>
      match s.deques[q]? with
      | none => (.wouldBlock, s)
      | some deque => (.lockState deque.lock.isLocked deque.lock.isPoisoned, s)

/-- Begins a run of a worker, unless it is running already or might wait for ever. -/
def begin (s : Session) (call : Option Nat) (w : Nat) (rest : List Frame) : List Frame × Session :=
  if (s.state.phase w).isRunning then (rest, s.record call .busy)
  else if mightBlock s.state then (rest, s.record call .wouldBlock)
  else (.running call w :: rest, { s with state := s.state.start w })

/-- The scripts that a step of a worker sets off: those of the kernel call that it began. -/
def hooked (hooks : Hooks) (s : JobState) (w : Nat) (rest : List Frame) : List Frame :=
  match s.phase w with
  | .calling _ _ =>
      let call := s.calls.size - 1
      match hooks.at call with
      | [] => rest
      | actions => .playing (some call) actions :: rest
  | _ => rest

/-- Plays what is under way. Each round takes an action or a step of a worker; `fuel` bounds their
number. It ends early if the process does, or if a run waits for ever. -/
def play (job : Job) (hooks : Hooks) : Nat → List Frame → Session → Session
  | 0, _, s => s
  | _ + 1, [], s => s
  | fuel + 1, .playing _ [] :: rest, s => play job hooks fuel rest s
  | fuel + 1, .playing call (.run w :: actions) :: rest, s =>
      let (frames, s) := s.begin call w (.playing call actions :: rest)
      play job hooks fuel frames s
  | fuel + 1, .playing call (action :: actions) :: rest, ⟨state, results⟩ =>
      let (result, state) := serve job state action
      if state.aborted.isSome then ⟨state, results⟩
      else play job hooks fuel (.playing call actions :: rest) ⟨state, results.push (call, result)⟩
  | fuel + 1, .running call w :: rest, ⟨state, results⟩ =>
      if (state.phase w).isOver then
        let result := runResult state w
        play job hooks fuel rest ⟨state, results.push (call, result)⟩
      else if state.isReady w then
        let state := job.advance state w
        if state.aborted.isSome then ⟨state, results⟩
        else play job hooks fuel (hooked hooks state w (.running call w :: rest)) ⟨state, results⟩
      else ⟨state, results⟩

/-- Enough rounds for a script with `actions` actions: every index is taken and called once, a run
that finds nothing looks at every deque once, and an index that is stolen may be followed by what is
left of one sweep and by another. -/
def budget (s : JobState) (actions : Nat) : Nat :=
  (actions + s.untaken + 2) * (2 * s.workers.size + 8)

def hookLength (hooks : Hooks) : Nat :=
  hooks.foldr (fun hook total => hook.2.length + total) 0

def perform (job : Job) (hooks : Hooks) (actions : List Action) (s : Session) : Session :=
  play job hooks (budget s.state (actions.length + hookLength hooks)) [.playing none actions] s

/-- Runs a worker that has started to its end, with nobody else around but the hooks. -/
def finish (job : Job) (hooks : Hooks) (w : Nat) (s : Session) : Session :=
  play job hooks (budget s.state (1 + hookLength hooks)) [.running none w] s

end Session

end Elementwise
