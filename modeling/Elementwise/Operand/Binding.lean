import Elementwise.Kernel.Basic
import Elementwise.Memory.Basic
import Elementwise.Operand.Pointer

/-!
A kernel bound to its operands: what one call at an index reads, computes and writes.
-/

namespace Elementwise

/-- A kernel with one pointer for each of its inputs and one for its output. -/
structure Binding where
  kernel : Kernel
  inputs : List Pointer
  output : Pointer
  arity_pos : 0 < kernel.arity
  length_inputs : inputs.length = kernel.arity

namespace Binding

/-- Binds a kernel to operands. It has to take an input, and there has to be an operand for each. -/
def ofOperands? (kernel : Kernel) (operands : Operands) : Except Rejection Binding :=
  if h : kernel.arity = 0 then .error .noInputs
  else if h' : operands.inputs.length = kernel.arity then
    .ok ⟨kernel, operands.inputs, operands.output, Nat.pos_of_ne_zero h, h'⟩
  else .error (.operandCount (kernel.arity + 1) (operands.inputs.length + 1))

def inputAddresses (b : Binding) (index : Nat) : List UInt64 :=
  b.inputs.map fun pointer => pointer.address index

def outputAddress (b : Binding) (index : Nat) : UInt64 := b.output.address index

def outputSize (b : Binding) : Nat := b.kernel.signature.output.size

def gather (b : Binding) (m : Memory) (index : Nat) : List UInt64 :=
  List.zipWith (fun (t : ScalarType) address => m.load address t.size) b.kernel.signature.inputs
    (b.inputAddresses index)

def evaluate (b : Binding) (m : Memory) (index : Nat) : UInt64 := b.kernel.eval (b.gather m index)

def scatter (b : Binding) (m : Memory) (index : Nat) (bits : UInt64) : Memory :=
  m.store (b.outputAddress index) b.outputSize bits

def invoke (b : Binding) (m : Memory) (index : Nat) : Memory :=
  b.scatter m index (b.evaluate m index)

def invokeAll (b : Binding) (m : Memory) (indices : List Nat) : Memory :=
  indices.foldl b.invoke m

end Binding

end Elementwise
