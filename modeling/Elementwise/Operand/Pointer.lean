import Elementwise.Failure

/-!
Where the elements of a call are: a base address and a byte stride for each input and for the
output. Addresses wrap around; a stride may be zero, which repeats one element, or negative.
-/

namespace Elementwise

/-- A base address and the distance in bytes from one element to the next. -/
structure Pointer where
  base : UInt64
  stride : Int64
deriving DecidableEq, Repr, Inhabited

/-- The address of the element at an index, modulo `2 ^ 64`. -/
def Pointer.address (p : Pointer) (index : Nat) : UInt64 :=
  p.base + UInt64.ofNat index * p.stride.toUInt64

namespace Pointer

/-- The index that an address shows to somebody who knows the pointer: the signed distance from the
base in whole strides, as a word. -/
def indexOf (p : Pointer) (address : UInt64) : Nat :=
  ((address - p.base).toInt64 / p.stride).toUInt64.toNat

/-- The index that the address of an element shows. It is the index of the element itself if the
stride is not zero and the distance does not wrap around. -/
def shownIndex (p : Pointer) (index : Nat) : Nat := p.indexOf (p.address index)

/-- The payloads of a kernel that unwinds at chosen indices. A kernel is told addresses and no index,
so it goes by the index that the address of its output shows. -/
def failingAt (output : Pointer) (chosen : List Nat) (index : Nat) : Option Payload :=
  let shown := output.shownIndex index
  if shown ∈ chosen then some (.kernelFailure shown) else none

end Pointer

/-- The inputs of a call in argument order, at least one, and its output. -/
structure Operands where
  inputs : List Pointer
  output : Pointer
  inputs_ne_nil : inputs ≠ []
deriving DecidableEq, Repr

namespace Operands

/-- Pairs base addresses with strides, the output last. There has to be a stride for every base, and
one input besides the output; values are not looked at. -/
def ofPointers? (bases : List UInt64) (strides : List Int64) : Except Rejection Operands :=
  if bases.length ≠ strides.length then .error (.strideCount bases.length strides.length)
  else
    match (List.zipWith Pointer.mk bases strides).reverse with
    | output :: input :: rest =>
        .ok ⟨(input :: rest).reverse, output, by simp⟩
    | _ => .error (.operandCount 2 bases.length)

end Operands

end Elementwise
