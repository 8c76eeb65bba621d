import Elementwise.Executor
import Elementwise.Operand.View

/-!
Families of kernels: variants of one function that take the same number of inputs and differ in
their types. A call picks the variant by the types of its operands, repeats single elements as often
as needed, and covers as many indices as the output has elements.
-/

namespace Elementwise

/-- Kernels that all take `arity` inputs, no two of them of the same types. -/
structure Family where
  arity : Nat
  variants : List Kernel

namespace Family

/-- The first kernel, counted from `position`, that takes another number of inputs than the family
or whose input types have been seen before, and what is wrong with it. -/
def fault? (arity : Nat) : Nat → List (List ScalarType) → List Kernel → Option Rejection
  | _, _, [] => none
  | position, seen, kernel :: rest =>
      let signature := kernel.signature
      if signature.arity ≠ arity then some (.arityMismatch position arity signature.arity)
      else if signature.inputs ∈ seen then some (.duplicateSignature signature)
      else fault? arity (position + 1) (signature.inputs :: seen) rest

/-- Builds a family. The first kernel sets the number of inputs, which must not be zero. -/
def build? (variants : List Kernel) : Except Rejection Family :=
  match variants with
  | [] => .error .emptyFamily
  | first :: _ =>
      if first.arity = 0 then .error .noInputs
      else
        match fault? first.arity 0 [] variants with
        | some reason => .error reason
        | none => .ok ⟨first.arity, variants⟩

def signatures (f : Family) : List Signature := f.variants.map Kernel.signature

def resolve? (f : Family) (inputs : List ScalarType) (output : ScalarType) : Option Nat :=
  f.signatures.findIdx? fun signature => signature.inputs = inputs ∧ signature.output = output

/-- The first input, counted from `position`, whose length is neither `n` nor one. -/
def lengthFault? (n : Nat) : Nat → List View → Option Rejection
  | _, [] => none
  | position, view :: rest =>
      if view.length ≠ n ∧ view.length ≠ 1 then some (.lengthMismatch position n view.length)
      else lengthFault? n (position + 1) rest

def pointers (n : Nat) (inputs : List View) (output : View) : List Pointer :=
  inputs.map (View.inputPointer · n) ++ [output.outputPointer]

/-- Turns views into a call of the matching variant. Three things are checked in order: the number
of inputs, the types, and the lengths. -/
def request? (f : Family) (inputs : List View) (output : View) : Except Rejection Request :=
  if inputs.length ≠ f.arity then .error (.operandCount (f.arity + 1) (inputs.length + 1))
  else
    let types := inputs.map View.element
    match f.resolve? types output.element with
    | none => .error (.noMatchingSignature types output.element)
    | some variant =>
        match f.variants[variant]?, lengthFault? output.length 0 inputs with
        | none, _ => .error (.noMatchingSignature types output.element)
        | some _, some reason => .error reason
        | some kernel, none =>
            let pointers := pointers output.length inputs output
            match Operands.ofPointers? (pointers.map Pointer.base) (pointers.map Pointer.stride) with
            | .error reason => .error reason
            | .ok operands => .ok { kernel, operands, elements := output.length }

end Family

end Elementwise
