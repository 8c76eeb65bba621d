import Elementwise.Scalar.FloatFormat

/-!
Conversions between element types. An element is a word that holds its bit pattern in the low bits
and zeros above. Integers keep their low bits, a float becomes an integer by truncation clamped to
the range of the target with NaN going to zero, and everything else rounds to nearest, ties to even.
-/

namespace Elementwise

namespace ScalarType

/-- The bits that an element of this type occupies in a word. -/
def mask : ScalarType → UInt64
  | int8 => 0xff
  | int16 => 0xffff
  | int32 | float32 => 0xffffffff
  | int64 | float64 => 0xffffffffffffffff

def toInt64 (t : ScalarType) (bits : UInt64) : Int64 :=
  match t with
  | int8 => bits.toUInt8.toInt8.toInt64
  | int16 => bits.toUInt16.toInt16.toInt64
  | int32 => bits.toUInt32.toInt32.toInt64
  | int64 => bits.toInt64
  | float32 => (Float32.ofBits bits.toUInt32).toInt64
  | float64 => (Float.ofBits bits).toInt64

/-- The element of this type nearest to an integer: the low bits for integer types, the rounded
value for floats. -/
def ofInt64 (t : ScalarType) (value : Int64) : UInt64 :=
  match t with
  | float32 => value.toFloat32.toBits.toUInt64
  | float64 => value.toFloat.toBits
  | _ => value.toUInt64 &&& t.mask

def toDouble (t : ScalarType) (bits : UInt64) : UInt64 :=
  match t with
  | float64 => bits
  | float32 => FloatFormat.widen bits
  | _ => (t.toInt64 bits).toFloat.toBits

/-- Truncates a double to an integer type, clamping to its range. -/
def clampDouble (t : ScalarType) (bits : UInt64) : UInt64 :=
  let x := Float.ofBits bits
  match t with
  | int8 => x.toInt8.toUInt8.toUInt64
  | int16 => x.toInt16.toUInt16.toUInt64
  | int32 => x.toInt32.toUInt32.toUInt64
  | int64 => x.toInt64.toUInt64
  | float32 => FloatFormat.narrow bits
  | float64 => bits

/-- Converts an element of type `source` to type `target`. A single precision value passes through
double precision without loss. -/
def convert (source target : ScalarType) (bits : UInt64) : UInt64 :=
  if source = target then bits
  else if source.isFloat then target.clampDouble (source.toDouble bits)
  else target.ofInt64 (source.toInt64 bits)

end ScalarType

end Elementwise
