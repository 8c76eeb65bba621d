import Elementwise.Launch.Threads
import Elementwise.Settings.Basic
import Elementwise.Sync.Gate

/-!
The launchers: threads of one of two libraries, which keep the same contract, or a script.
-/

namespace Elementwise

inductive ThreadLibrary where
  | std
  | crossbeam
deriving DecidableEq, Repr, Inhabited

namespace ThreadLibrary

def name : ThreadLibrary → String
  | std => "std"
  | crossbeam => "crossbeam"

def launch (library : ThreadLibrary) (namePrefix : String) (stackSize : Option Nat) (host : Host)
    (workers : List Nat) : Launch LaunchRecord :=
  match library with
  | std => StdThreads.launch ⟨namePrefix, stackSize⟩ host workers
  | crossbeam => CrossbeamThreads.launch ⟨namePrefix, stackSize⟩ host workers

end ThreadLibrary

def ThreadChoice.library : ThreadChoice → ThreadLibrary
  | native | std => .std
  | crossbeam => .crossbeam

/-- What starts and joins the workers of a call. -/
inductive Launcher where
  | threads (library : ThreadLibrary) (namePrefix : String) (stackSize : Option Nat)
  | scripted (script : LaunchScript)
deriving DecidableEq, Repr, Inhabited

namespace Launcher

def ofSettings (s : Settings) : Launcher := .threads s.threads.library s.threadName s.stackSize

def name : Launcher → String
  | threads library _ _ => library.name
  | scripted _ => "scripted"

/-- The launch of a number of workers. -/
def plan (l : Launcher) (host : Host) (workers : Nat) : Launch LaunchRecord :=
  match l with
  | threads library namePrefix stackSize =>
      library.launch namePrefix stackSize host (List.range workers)
  | scripted script => script.launch workers

/-- What a launch unwinds with if the name of its first thread has a NUL character. -/
def namingFault? (l : Launcher) (workers : Nat) : Option Payload :=
  match l with
  | scripted _ => none
  | threads _ namePrefix _ =>
      if workers = 0 then none else ThreadBuilder.nulFault? (threadName namePrefix 0)

end Launcher

/-- What a member of a roll call saw: its number, the name of its thread, and what the gate told
it. -/
structure Sighting where
  worker : Nat
  threadName : String
  told : Option Bool
deriving DecidableEq, Repr

/-- A roll call: workers that wait at the gate, say what they saw, and leave. -/
structure RollCall where
  gate : Gate
  seen : List Sighting := []
deriving DecidableEq, Repr

/-- The crew of a roll call under thread names with the given prefix. The named workers fail after
they were seen. -/
def RollCall.crew (namePrefix : String) (failing : List Nat) : Crew RollCall where
  begin _ s := s
  settle started s := { s with gate := s.gate.settle started }
  finish worker s :=
    let sighting := ⟨worker, threadName namePrefix worker, s.gate.wait?⟩
    ({ s with seen := s.seen ++ [sighting] },
      if worker ∈ failing then some (.workerFailure worker) else none)

end Elementwise
