/-!
The six element types a kernel can read and write, with their sizes, their stable numeric codes and
their two spellings.
-/

namespace Elementwise

/-- The type of one element: a signed integer of four widths, or one of two floating point formats. -/
inductive ScalarType where
  | int8
  | int16
  | int32
  | int64
  | float32
  | float64
deriving DecidableEq, Repr, Inhabited

namespace ScalarType

/-- Every type, at the position of its code. -/
def all : List ScalarType := [int8, int16, int32, int64, float32, float64]

def size : ScalarType → Nat
  | int8 => 1
  | int16 => 2
  | int32 => 4
  | int64 => 8
  | float32 => 4
  | float64 => 8

theorem size_pos (t : ScalarType) : 0 < t.size := by cases t <;> decide

/-- The number by which foreign callers name the type. It never changes. -/
def code : ScalarType → UInt8
  | int8 => 0
  | int16 => 1
  | int32 => 2
  | int64 => 3
  | float32 => 4
  | float64 => 5

def ofCode? (code : UInt8) : Option ScalarType := all[code.toNat]?

@[simp] theorem ofCode?_code (t : ScalarType) : ofCode? t.code = some t := by cases t <;> rfl

/-- The short lower-case name, used where a signature is shown. -/
def name : ScalarType → String
  | int8 => "i8"
  | int16 => "i16"
  | int32 => "i32"
  | int64 => "i64"
  | float32 => "f32"
  | float64 => "f64"

/-- The capitalised name, used in stored text and where a list of types is shown. -/
def label : ScalarType → String
  | int8 => "I8"
  | int16 => "I16"
  | int32 => "I32"
  | int64 => "I64"
  | float32 => "F32"
  | float64 => "F64"

def isFloat : ScalarType → Bool
  | float32 | float64 => true
  | _ => false

end ScalarType

end Elementwise
