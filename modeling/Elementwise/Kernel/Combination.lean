import Elementwise.Kernel.Basic
import Elementwise.Scalar.Arithmetic

/-!
Kernels of any signature that add up their inputs with small weights. A floating point result is
accumulated in double precision and rounded once more at the end; an integer result is accumulated
in wrapping 64-bit arithmetic and cut to its low bits.
-/

namespace Elementwise

/-- Which inputs count, and how much: each by its position, all the same, or only the last one. -/
inductive Combination where
  | weighted
  | sum
  | last
deriving DecidableEq, Repr

namespace Combination

/-- The weight of the input at a position. An input without weight is left out. -/
def weight? (arity : Nat) (position : Nat) : Combination → Option Nat
  | weighted => some (position + 1)
  | sum => some 1
  | last => if position + 1 = arity then some 1 else none

/-- The inputs that count, with their weights and types, in order. -/
def terms (mode : Combination) (types : List ScalarType) (inputs : List UInt64) :
    List (Nat × ScalarType × UInt64) :=
  ((types.zip inputs).zipIdx).filterMap fun (input, position) =>
    (mode.weight? types.length position).map fun weight => (weight, input)

/-- The sum in double precision, from positive zero. -/
def floatSum (terms : List (Nat × ScalarType × UInt64)) : UInt64 :=
  let ops := Arithmetic.of .float64
  terms.foldl (fun total (weight, t, bits) =>
    ops.add total (ops.mul (ScalarType.ofInt64 .float64 (Int64.ofNat weight)) (t.toDouble bits))) 0

def integerSum (terms : List (Nat × ScalarType × UInt64)) : Int64 :=
  terms.foldl (fun total (weight, t, bits) => total + Int64.ofNat weight * t.toInt64 bits) 0

def kernel (mode : Combination) (signature : Signature) : Kernel where
  signature := signature
  eval inputs :=
    let terms := mode.terms signature.inputs inputs
    if signature.output.isFloat then ScalarType.convert .float64 signature.output (floatSum terms)
    else signature.output.ofInt64 (integerSum terms)

end Combination

end Elementwise
