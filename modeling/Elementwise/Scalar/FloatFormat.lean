import Elementwise.Scalar.Type

/-!
Arithmetic of the two floating point formats on bit patterns. A pattern is held in the low bits of a
word. Results that are no NaN are those of the correctly rounded operations; which NaN comes out is
fixed here, because a result may be read back as integers: a NaN operand is returned quieted, the
left one if both are, and an operation without a result gives the negative quiet NaN.
-/

namespace Elementwise

/-- A floating point format, given by the masks of its fields and its operations on patterns that
are not NaN. -/
structure FloatFormat where
  signBit : UInt64
  exponentMask : UInt64
  fractionMask : UInt64
  quietBit : UInt64
  add : UInt64 → UInt64 → UInt64
  sub : UInt64 → UInt64 → UInt64
  mul : UInt64 → UInt64 → UInt64

namespace FloatFormat

/-- Single precision: eight exponent bits and 23 fraction bits. -/
def single : FloatFormat where
  signBit := 0x80000000
  exponentMask := 0x7f800000
  fractionMask := 0x007fffff
  quietBit := 0x00400000
  add x y := (Float32.ofBits x.toUInt32 + Float32.ofBits y.toUInt32).toBits.toUInt64
  sub x y := (Float32.ofBits x.toUInt32 - Float32.ofBits y.toUInt32).toBits.toUInt64
  mul x y := (Float32.ofBits x.toUInt32 * Float32.ofBits y.toUInt32).toBits.toUInt64

/-- Double precision: eleven exponent bits and 52 fraction bits. -/
def double : FloatFormat where
  signBit := 0x8000000000000000
  exponentMask := 0x7ff0000000000000
  fractionMask := 0x000fffffffffffff
  quietBit := 0x0008000000000000
  add x y := (Float.ofBits x + Float.ofBits y).toBits
  sub x y := (Float.ofBits x - Float.ofBits y).toBits
  mul x y := (Float.ofBits x * Float.ofBits y).toBits

/-- A NaN has all exponent bits and some fraction bit set. -/
def isNaN (f : FloatFormat) (bits : UInt64) : Bool :=
  bits &&& f.exponentMask == f.exponentMask && bits &&& f.fractionMask != 0

/-- The NaN that stands for an operation without a result. -/
def invalid (f : FloatFormat) : UInt64 := f.signBit ||| f.exponentMask ||| f.quietBit

/-- Extends an operation on numbers to all patterns by the NaN rule. -/
def lift (f : FloatFormat) (op : UInt64 → UInt64 → UInt64) (x y : UInt64) : UInt64 :=
  if f.isNaN x then x ||| f.quietBit
  else if f.isNaN y then y ||| f.quietBit
  else
    let result := op x y
    if f.isNaN result then f.invalid else result

/-- Negation flips the sign bit, of a NaN too. -/
def neg (f : FloatFormat) (x : UInt64) : UInt64 := x ^^^ f.signBit

/-- Widens single to double precision. It is exact, and a NaN keeps its sign and leading fraction
bits. -/
def widen (x : UInt64) : UInt64 :=
  if single.isNaN x then
    (x &&& single.signBit) <<< 32 ||| double.exponentMask ||| double.quietBit |||
      (x &&& single.fractionMask) <<< 29
  else (Float32.ofBits x.toUInt32).toFloat.toBits

/-- Narrows double to single precision, rounding to nearest with ties to even. A NaN keeps its sign
and leading fraction bits. -/
def narrow (x : UInt64) : UInt64 :=
  if double.isNaN x then
    (x &&& double.signBit) >>> 32 ||| single.exponentMask ||| single.quietBit |||
      (x &&& double.fractionMask) >>> 29
  else (Float.ofBits x).toFloat32.toBits.toUInt64

end FloatFormat

end Elementwise
