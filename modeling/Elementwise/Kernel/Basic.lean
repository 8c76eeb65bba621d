import Elementwise.Scalar.Signature

/-!
Kernels: functions of a few elements that produce one element.
-/

namespace Elementwise

/-- A kernel with its signature. `eval` is given the bits of the inputs in argument order and gives
the bits of the result. The arity it declares is the one its signature has, unless a foreign kernel
says otherwise. -/
structure Kernel where
  signature : Signature
  arity : Nat := signature.arity
  eval : List UInt64 → UInt64

end Elementwise
