import Elementwise.Memory.Buffer
import Elementwise.Operand.Pointer

/-!
Views of buffers as operands of a call: a whole buffer, every so-manyth element of it, or its first
element alone. A view of one element stands for as many equal elements as the call needs.
-/

namespace Elementwise

/-- `length` elements of one type, `stride` bytes apart. -/
structure View where
  element : ScalarType
  start : UInt64
  stride : Int64
  length : Nat
deriving DecidableEq, Repr, Inhabited

namespace View

def whole (b : Buffer) : View :=
  ⟨b.element, b.start, Int64.ofNat b.element.size, b.count⟩

/-- The elements of a buffer at the multiples of `step`. The stride is computed in wrapping 64-bit
arithmetic, which can only matter where there is no second element. -/
def every? (b : Buffer) (step : Nat) : Except Misuse View :=
  if step = 0 then .error .zeroStep
  else .ok ⟨b.element, b.start, Int64.ofNat (b.element.size * step), (b.count + (step - 1)) / step⟩

/-- The first element of a buffer, repeated as often as needed. -/
def first (b : Buffer) : View := ⟨b.element, b.start, 0, 1⟩

def isEmpty (v : View) : Bool := v.length == 0

/-- The pointer of an input in a call over `n` indices. A single element is repeated. -/
def inputPointer (v : View) (n : Nat) : Pointer :=
  ⟨v.start, if v.length = 1 ∧ n ≠ 1 then 0 else v.stride⟩

def outputPointer (v : View) : Pointer := ⟨v.start, v.stride⟩

end View

end Elementwise
