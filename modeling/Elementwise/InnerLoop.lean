import Elementwise.Executor

/-!
The entry for foreign callers, in the form of an inner loop over arrays: pointers, strides and type
codes for the inputs and the output, and the number of indices. The answer is a status number.
Breaches end the process.
-/

namespace Elementwise

namespace InnerLoop

/-- A foreign function. It is given the caller's data word and the bits of the inputs, of which it
knows the types. -/
abbrev ForeignFunction := UInt64 → Signature → List UInt64 → UInt64

/-- The arguments of the entry. Each of the first five may be a null pointer. The lists have
`count` entries. -/
structure Arguments where
  function : Option ForeignFunction
  pointers : Option (List UInt64)
  dimension : Option Int64
  steps : Option (List Int64)
  types : Option (List UInt8)
  count : Nat
  data : UInt64
  threads : Nat

inductive Status where
  | ok
  | nullPointer
  | badConfiguration
  | spawnFailed
  | unsupportedPlatform
deriving DecidableEq, Repr

def Status.number : Status → Int
  | ok => 0
  | nullPointer => -1
  | badConfiguration => -2
  | spawnFailed => -3
  | unsupportedPlatform => -4

def Status.ofFailure : Failure → Status
  | .rejected _ => .badConfiguration
  | .threadSpawn _ _ => .spawnFailed
  | .unsupportedPlatform _ => .unsupportedPlatform

/-- The settings of a call: the defaults, and the number of threads unless it is zero. -/
def settings (threads : Nat) : Settings :=
  let defaults : Settings := { onBreach := .abort }
  if threads = 0 then defaults else defaults.withWorkers threads

def kernel (function : ForeignFunction) (data : UInt64) (signature : Signature) : Kernel where
  signature := signature
  eval := function data signature

/-- Arguments without a null pointer, a negative dimension or an unknown type. -/
structure Checked where
  kernel : Kernel
  bases : List UInt64
  strides : List Int64
  elements : Nat

/-- Checks arguments: null pointers first, then the dimension, then the types. -/
def check (arguments : Arguments) : Except Status Checked :=
  match arguments.function, arguments.pointers, arguments.dimension, arguments.steps,
    arguments.types with
  | some function, some pointers, some dimension, some steps, some types =>
      if dimension < 0 then .error .badConfiguration
      else
        match Signature.ofCodes? (types.take arguments.count) with
        | none => .error .badConfiguration
        | some signature =>
            .ok ⟨kernel function arguments.data signature, pointers.take arguments.count,
              steps.take arguments.count, dimension.toInt.toNat⟩
  | _, _, _, _, _ => .error .nullPointer

/-- What a call of the entry leaves behind. There is a status unless the call did not return. -/
structure Result where
  outcome : Except Status Outcome
  session : Session

/-- The status that the caller sees, if the call returned. -/
def Result.status? (r : Result) : Option Status :=
  match r.outcome with
  | .error status => some status
  | .ok (.returned _) => some .ok
  | .ok (.failed cause) => some (.ofFailure cause)
  | .ok _ => none

def call (host : Host) (memory : Memory) (arguments : Arguments) : Result :=
  match check arguments with
  | .error status => ⟨.error status, .idle memory⟩
  | .ok checked =>
      match Executor.ofSettings? (settings arguments.threads) host with
      | .error cause => ⟨.error (.ofFailure cause), .idle memory⟩
      | .ok executor =>
          match Operands.ofPointers? checked.bases checked.strides with
          | .error reason => ⟨.error (.ofFailure reason), .idle memory⟩
          | .ok operands =>
              let run := executor.run memory
                { kernel := checked.kernel, operands, elements := checked.elements }
              ⟨.ok run.outcome, run.session⟩

end InnerLoop

end Elementwise
