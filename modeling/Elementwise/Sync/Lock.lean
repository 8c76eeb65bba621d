import Elementwise.Sync.Answer

/-!
The lock of a deque: one word that is free, held or poisoned, changed by compare-and-exchange. It
knows no owner. A call that finds a state it cannot go on from first poisons the lock and then
raises the state it had found; between these two steps other callers may still get in.
-/

namespace Elementwise

/-- The word of a lock. -/
structure Lock where
  word : UInt32 := 0
deriving DecidableEq, Repr, Inhabited

namespace Lock

def free : UInt32 := 0

def held : UInt32 := 1

/-- The word of a lock that was misused. It is never left again. -/
def poisoned : UInt32 := 0xffffffff

def isHeld (l : Lock) : Bool := l.word == held

/-- A poisoned lock counts as locked. -/
def isLocked (l : Lock) : Bool := l.word != free

def isPoisoned (l : Lock) : Bool := l.word == poisoned

inductive Call where
  | acquire
  | release
deriving DecidableEq, Repr

inductive Stage where
  | trying (call : Call)
  | poisoning (observed : UInt32)
  | returned
  | raised (observed : UInt32)
deriving DecidableEq, Repr

/-- One step of a call. The exchange that acquires may fail on a free lock for no reason, and is
tried again; a call that is over takes no more steps. -/
def step (spurious : Bool) : Stage → Lock → Stage × Lock
  | .trying .acquire, l =>
      if l.word = free then
        if spurious then (.trying .acquire, l) else (.returned, ⟨held⟩)
      else if l.word = held then (.trying .acquire, l)
      else (.poisoning l.word, l)
  | .trying .release, l =>
      if l.word = held then (.returned, ⟨free⟩) else (.poisoning l.word, l)
  | .poisoning observed, _ => (.raised observed, ⟨poisoned⟩)
  | stage, l => (stage, l)

/-- How a call ends that runs with nobody else around. It takes at most two steps, unless the lock
is held and it waits for ever. -/
def Stage.attempt : Stage → Attempt Unit
  | .returned => .returned ()
  | .raised observed => .breached (.lockProtocol observed)
  | _ => .blocked

def perform (call : Call) (l : Lock) : Attempt Unit × Lock :=
  let (stage, l) := step false (.trying call) l
  let (stage, l) := step false stage l
  (stage.attempt, l)

@[simp] theorem perform_acquire_free : perform .acquire ⟨free⟩ = (.returned (), ⟨held⟩) := rfl

@[simp] theorem perform_acquire_held : perform .acquire ⟨held⟩ = (.blocked, ⟨held⟩) := rfl

@[simp] theorem perform_acquire_poisoned :
    perform .acquire ⟨poisoned⟩ = (.breached (.lockProtocol poisoned), ⟨poisoned⟩) := rfl

@[simp] theorem perform_release_held : perform .release ⟨held⟩ = (.returned (), ⟨free⟩) := rfl

@[simp] theorem perform_release_free :
    perform .release ⟨free⟩ = (.breached (.lockProtocol free), ⟨poisoned⟩) := rfl

@[simp] theorem perform_release_poisoned :
    perform .release ⟨poisoned⟩ = (.breached (.lockProtocol poisoned), ⟨poisoned⟩) := rfl

/-- What a client asks of a lock. A guard releases the lock when it goes out of scope; the last
three requests misuse one: they release under the guard, once or twice, or release and acquire. -/
inductive Request where
  | call (call : Call)
  | isLocked
  | isPoisoned
  | guard
  | guardRelease
  | guardReleaseTwice
  | guardReacquire
deriving DecidableEq, Repr

inductive Reply where
  | done
  | flag (value : Bool)
deriving DecidableEq, Repr

/-- A call inside a request. The client catches what a `caught` call raises and goes on. -/
structure Step where
  call : Call
  caught : Bool := false

/-- The calls that a request makes. The last release of a guard is the one at the end of its
scope. -/
def Request.steps : Request → List Step
  | .call only => [{ call := only }]
  | .isLocked | .isPoisoned => []
  | .guard => [{ call := .acquire }, { call := .release }]
  | .guardRelease => [{ call := .acquire }, { call := .release }, { call := .release }]
  | .guardReleaseTwice =>
      [{ call := .acquire }, { call := .release }, { call := .release, caught := true },
        { call := .release }]
  | .guardReacquire =>
      [{ call := .acquire }, { call := .release }, { call := .acquire }, { call := .release }]

/-- Makes calls in order until one does not return. -/
def performAll (policy : BreachPolicy) : List Step → Lock → Answer Unit × Lock
  | [], l => (.value (), l)
  | step :: rest, l =>
      let (attempt, l) := perform step.call l
      match attempt.answer policy with
      | .value () => performAll policy rest l
      | .raised cause => if step.caught then performAll policy rest l else (.raised cause, l)
      | answer => (answer, l)

/-- Serves a request. A guard reports that the lock is locked while it holds it. -/
def serve (policy : BreachPolicy) (request : Request) (l : Lock) : Answer Reply × Lock :=
  match request with
  | .isLocked => (.value (.flag l.isLocked), l)
  | .isPoisoned => (.value (.flag l.isPoisoned), l)
  | .guard =>
      let (answer, l) := performAll policy request.steps l
      (answer.map fun _ => .flag true, l)
  | _ =>
      let (answer, l) := performAll policy request.steps l
      (answer.map fun _ => .done, l)

end Lock

end Elementwise
