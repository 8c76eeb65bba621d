import Elementwise.Scalar.Conversion

/-!
The arithmetic of one element type on bit patterns: integers wrap, floats are rounded after each
operation.
-/

namespace Elementwise

/-- The operations of one element type on its bit patterns. -/
structure Arithmetic where
  neg : UInt64 → UInt64
  add : UInt64 → UInt64 → UInt64
  sub : UInt64 → UInt64 → UInt64
  mul : UInt64 → UInt64 → UInt64

namespace Arithmetic

def wrapping (mask : UInt64) : Arithmetic where
  neg x := (0 - x) &&& mask
  add x y := (x + y) &&& mask
  sub x y := (x - y) &&& mask
  mul x y := (x * y) &&& mask

def rounded (f : FloatFormat) : Arithmetic where
  neg := f.neg
  add := f.lift f.add
  sub := f.lift f.sub
  mul := f.lift f.mul

def of : ScalarType → Arithmetic
  | .float32 => rounded .single
  | .float64 => rounded .double
  | t => wrapping t.mask

end Arithmetic

end Elementwise
