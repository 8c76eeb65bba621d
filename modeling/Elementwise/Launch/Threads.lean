import Elementwise.Launch.Basic

/-!
Launches by threads. Two libraries create threads inside a scope, which joins whatever has not been
joined before it ends; they differ in what their scopes make of threads that they join that way.
-/

namespace Elementwise

/-- What the host offers: cores, and threads of a given stack size for a given worker. A host
without any threads names its platform instead. -/
structure Host where
  cores : Nat
  creates : Option Nat → Nat → Bool
  threadless : Option String := none

namespace Host

/-- The first stack size in bytes that no thread can have. -/
def stackLimit : Nat := 1 <<< 56

def offersStack : Option Nat → Bool
  | none => true
  | some bytes => bytes < stackLimit

def ordinary (cores : Nat) : Host where
  cores := cores
  creates stack _ := offersStack stack

/-- A host that cannot give a thread the platform's own stack size. -/
def withoutDefaultStack (cores : Nat) : Host where
  cores := cores
  creates stack _ := stack.isSome && offersStack stack

end Host

/-- A thread to be created. It has the platform's own stack size if none is given. -/
structure ThreadBuilder where
  name : String
  stackSize : Option Nat := none

namespace ThreadBuilder

def withStackSize (b : ThreadBuilder) (bytes : Nat) : ThreadBuilder :=
  { b with stackSize := some bytes }

/-- What a thread name leaves that has a NUL character. -/
def nulFault? (name : String) : Option Payload :=
  let bytes := name.toUTF8.toList
  if '\x00' ∈ name.toList then some (.nulInName (bytes.idxOf 0) bytes) else none

/-- Creates the thread for a worker, unless the host cannot, and tells whether it did. -/
def spawn (b : ThreadBuilder) (host : Host) (worker : Nat) : Launch Bool :=
  match nulFault? b.name with
  | some cause => .unwind cause
  | none =>
      if host.creates b.stackSize worker then .create worker (.result true)
      else .refuse worker (.result false)

end ThreadBuilder

/-- The name of the thread of a worker. -/
def threadName (base : String) (worker : Nat) : String := base ++ "-" ++ toString worker

/-- What happens in a scope around a launch: the launch itself, and then a join of each thread that
it created and did not join. `unjoined` are the threads created so far. Gives what the launch gives
or unwinds with, and the payloads of the threads that were left to the scope. -/
def Launch.scoped {α : Type} :
    Launch α → List Nat → Launch (Except Payload α × List (Nat × Payload))
  | result value, unjoined => do return (.ok value, ← unjoined.filterMapM joined)
  | unwind cause, unjoined => do return (.error cause, ← unjoined.filterMapM joined)
  | create worker rest, unjoined => create worker (rest.scoped (unjoined ++ [worker]))
  | refuse worker rest, unjoined => refuse worker (rest.scoped unjoined)
  | settle started rest, unjoined => settle started (rest.scoped unjoined)
  | join worker rest, unjoined =>
      join worker fun payload => (rest payload).scoped (unjoined.erase worker)

/-- Threads of the standard library. -/
structure StdThreads where
  namePrefix : String
  stackSize : Option Nat

namespace StdThreads

/-- The scope of the standard library. It unwinds with the launch, and also if a thread that was left
to it ended badly. -/
def scope {α : Type} (body : Launch α) : Launch α := do
  match ← body.scoped [] with
  | (.error cause, _) => .unwind cause
  | (.ok value, []) => return value
  | (.ok _, _ :: _) => .unwind .scopedThread

def builder (t : StdThreads) (worker : Nat) : ThreadBuilder :=
  let builder : ThreadBuilder := { name := threadName t.namePrefix worker }
  match t.stackSize with
  | some bytes => builder.withStackSize bytes
  | none => builder

/-- What a launch does inside its scope. It creates threads up to the first that cannot be created,
settles the gate with their number and joins them all. -/
def body (t : StdThreads) (host : Host) (workers : List Nat) : Launch LaunchRecord := do
  let mut handles := []
  let mut refused := none
  for worker in workers do
    if ← (t.builder worker).spawn host worker then
      handles := handles ++ [worker]
    else
      refused := some worker
      break
  Launch.settled handles.length
  let payloads ← handles.filterMapM Launch.joined
  return ⟨handles.length, refused, payloads⟩

def launch (t : StdThreads) (host : Host) (workers : List Nat) : Launch LaunchRecord :=
  scope (t.body host workers)

end StdThreads

/-- Threads of the crossbeam library. -/
structure CrossbeamThreads where
  namePrefix : String
  stackSize : Option Nat

namespace CrossbeamThreads

/-- The scope of the crossbeam library. It unwinds with the launch, but gives an error with the
payloads if threads that were left to it ended badly. -/
def scope {α : Type} (body : Launch α) : Launch (Except (List (Nat × Payload)) α) := do
  match ← body.scoped [] with
  | (.error cause, _) => .unwind cause
  | (.ok value, []) => return .ok value
  | (.ok _, payloads) => return .error payloads

/-- What a launch does inside its scope. It creates threads up to the first that cannot be created,
settles the gate with their number and joins them all. -/
def body (t : CrossbeamThreads) (host : Host) (workers : List Nat) : Launch LaunchRecord := do
  let mut handles := []
  let mut refused := none
  for worker in workers do
    let mut builder : ThreadBuilder := { name := threadName t.namePrefix worker }
    if let some bytes := t.stackSize then
      builder := builder.withStackSize bytes
    if ← builder.spawn host worker then
      handles := handles ++ [worker]
    else
      refused := some worker
      break
  Launch.settled handles.length
  let payloads ← handles.filterMapM Launch.joined
  return ⟨handles.length, refused, payloads⟩

/-- An error of the scope is passed on by unwinding with it. -/
def launch (t : CrossbeamThreads) (host : Host) (workers : List Nat) : Launch LaunchRecord := do
  match ← scope (t.body host workers) with
  | .ok record => return record
  | .error payloads => .unwind (.unjoined (payloads.map Prod.fst))

end CrossbeamThreads

end Elementwise
