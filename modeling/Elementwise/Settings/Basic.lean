import Elementwise.Text.Label

/-!
The settings of an executor, their defaults and the ways to change one of them.
-/

namespace Elementwise

/-- How a worker waits for a lock that another worker holds: without pause, or with growing pauses
that end in yielding the thread. -/
inductive LockStrategy where
  | spin
  | backoff
deriving DecidableEq, Repr, Inhabited

instance : Labelled LockStrategy where
  values := [.spin, .backoff]
  label
    | .spin => "Spin"
    | .backoff => "Backoff"

/-- What a breach does: end the process, or unwind through the caller. -/
inductive BreachPolicy where
  | abort
  | unwind
deriving DecidableEq, Repr, Inhabited

instance : Labelled BreachPolicy where
  values := [.abort, .unwind]
  label
    | .abort => "Abort"
    | .unwind => "Panic"

/-- What a call does when a worker cannot be started: give up without work, or go on with the
workers there are. -/
inductive SpawnPolicy where
  | abort
  | degrade
deriving DecidableEq, Repr, Inhabited

instance : Labelled SpawnPolicy where
  values := [.abort, .degrade]
  label
    | .abort => "Abort"
    | .degrade => "Degrade"

inductive ThreadChoice where
  | native
  | std
  | crossbeam
deriving DecidableEq, Repr, Inhabited

instance : Labelled ThreadChoice where
  values := [.native, .std, .crossbeam]
  label
    | .native => "Native"
    | .std => "Std"
    | .crossbeam => "Crossbeam"

structure Settings where
  /-- The requested number of workers; the number of cores if absent. -/
  workers : Option Nat := none
  /-- Whether completed elements are counted against the size of the call. -/
  verifyCompletion : Bool := true
  lockStrategy : LockStrategy := .spin
  onBreach : BreachPolicy := .abort
  onSpawnFailure : SpawnPolicy := .abort
  threads : ThreadChoice := .native
  /-- A worker's thread is named by this text, a hyphen and the worker's number. -/
  threadName : String := "parvec-worker"
  /-- Stack size of a thread in bytes; the platform's own if absent. -/
  stackSize : Option Nat := none
deriving DecidableEq, Repr, Inhabited

namespace Settings

def withWorkers (s : Settings) (count : Nat) : Settings := { s with workers := some count }

def withVerifyCompletion (s : Settings) (verify : Bool) : Settings :=
  { s with verifyCompletion := verify }

def withLockStrategy (s : Settings) (strategy : LockStrategy) : Settings :=
  { s with lockStrategy := strategy }

def withBreachPolicy (s : Settings) (policy : BreachPolicy) : Settings :=
  { s with onBreach := policy }

def withSpawnPolicy (s : Settings) (policy : SpawnPolicy) : Settings :=
  { s with onSpawnFailure := policy }

def withThreads (s : Settings) (choice : ThreadChoice) : Settings := { s with threads := choice }

def withStackSize (s : Settings) (bytes : Nat) : Settings := { s with stackSize := some bytes }

end Settings

end Elementwise
