import Elementwise.Scalar.Signature

/-!
Everything that can go wrong, by cause, with the text shown for it. A `Rejection` is found before
any worker starts; a `Failure` is what a call returns instead of a report; a `Breach` means that the
scheduler itself is broken and is never returned; a `Misuse` is a call outside its precondition; a
`Payload` is what unwinds through a caller.
-/

namespace Elementwise

/-- Why kernels, operands or settings were turned down. -/
inductive Rejection where
  | zeroWorkers
  | noInputs
  | emptyFamily
  | arityMismatch (variant expected found : Nat)
  | duplicateSignature (signature : Signature)
  | noMatchingSignature (inputs : List ScalarType) (output : ScalarType)
  | operandCount (expected found : Nat)
  | lengthMismatch (operand expected found : Nat)
  | strideCount (pointers strides : Nat)
  | invalidVariable (key value : String)
deriving DecidableEq, Repr

/-- The shown text of a rejection. A list of types is shown by labels, a single type by its name. -/
def Rejection.message : Rejection → String
  | zeroWorkers => "worker count must be at least 1"
  | noInputs => "a kernel must take at least one input"
  | emptyFamily => "a kernel family needs at least one variant"
  | arityMismatch variant expected found =>
      s!"variant {variant} takes {found} arguments, but the family takes {expected}"
  | duplicateSignature signature =>
      "signature " ++ signature.text ++ " is registered more than once"
  | noMatchingSignature inputs output =>
      "no variant accepts inputs [" ++ ", ".intercalate (inputs.map ScalarType.label) ++
        "] producing " ++ output.name
  | operandCount expected found => s!"expected {expected} operands, got {found}"
  | lengthMismatch operand expected found =>
      s!"operand {operand} has length {found}, expected {expected} or 1"
  | strideCount pointers strides =>
      s!"pointer count {pointers} does not match stride count {strides}"
  | invalidVariable key value => "invalid value `" ++ value ++ "` for " ++ key

/-- Why a call returned no report. -/
inductive Failure where
  | unsupportedPlatform (target : String)
  | rejected (reason : Rejection)
  | threadSpawn (worker requested : Nat)
deriving DecidableEq, Repr

/-- The shown text of a failure. A rejection keeps its own text. -/
def Failure.message : Failure → String
  | unsupportedPlatform target =>
      "no thread-launch backend available for target `" ++ target ++ "`"
  | rejected reason => reason.message
  | threadSpawn worker requested => s!"failed to spawn worker {worker} of {requested}"

instance : Coe Rejection Failure := ⟨Failure.rejected⟩

/-- A broken invariant of the scheduler: a lock found in a state that the caller's view of it rules
out, or workers that together completed another number of elements than there are. -/
inductive Breach where
  | lockProtocol (observed : UInt32)
  | consistency (expected completed : Nat)
deriving DecidableEq, Repr

def Breach.message : Breach → String
  | lockProtocol observed =>
      s!"lock protocol violation: release observed state {observed.toNat}, expected 1"
  | consistency expected completed =>
      s!"consistency violation: dispatched {expected} elements, workers completed {completed}"

/-- The line that a process writes to its error stream before a breach ends it. -/
def Breach.lastWords (b : Breach) : String := "parvec: " ++ b.message ++ "; aborting"

/-- A call outside its precondition. -/
inductive Misuse where
  | zeroStep
  | zeroPlan
deriving DecidableEq, Repr

def Misuse.message : Misuse → String
  | zeroStep => "operand step must be non-zero"
  | zeroPlan => "cannot plan for zero workers"

/-- What unwinds through a caller: a breach, the failure of a kernel at an index or of a worker's
entry, a misuse, or a thread name with a NUL character at a byte position. The last two are what the
scopes of two libraries unwind with over threads that nobody joined and that ended badly; the second
of them is a box with what the threads of these workers unwound with. -/
inductive Payload where
  | breach (cause : Breach)
  | kernelFailure (index : Nat)
  | workerFailure (worker : Nat)
  | misuse (cause : Misuse)
  | nulInName (position : Nat) (name : List UInt8)
  | scopedThread
  | unjoined (workers : List Nat)
deriving DecidableEq, Repr

def Payload.message : Payload → String
  | breach cause => cause.message
  | kernelFailure index => s!"kernel failure at {index}"
  | workerFailure worker => s!"worker {worker} failed"
  | misuse cause => cause.message
  | nulInName position name =>
      s!"thread name may not contain interior null bytes: NulError({position}, [" ++
        ", ".intercalate (name.map fun byte => toString byte.toNat) ++ "])"
  | scopedThread => "a scoped thread panicked"
  | unjoined _ => "Box<dyn Any>"

end Elementwise
