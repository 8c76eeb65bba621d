import Elementwise.Memory.Basic
import Elementwise.Scalar.Type

/-!
Buffers: runs of elements of one type in memory.
-/

namespace Elementwise

/-- `count` elements of one type, one after another from address `start` on. -/
structure Buffer where
  element : ScalarType
  start : UInt64
  count : Nat
deriving Repr, Inhabited

namespace Buffer

def address (b : Buffer) (index : Nat) : UInt64 :=
  b.start + UInt64.ofNat (b.element.size * index)

def get (b : Buffer) (m : Memory) (index : Nat) : UInt64 :=
  m.load (b.address index) b.element.size

def elements (b : Buffer) (m : Memory) : List UInt64 :=
  (List.range b.count).map (b.get m)

end Buffer

namespace Memory

/-- Adds `count` more elements, the next of which has position `index`. -/
def appendElements (width : Nat) (value : Nat → UInt64) (index : Nat) : Nat → Memory → Memory
  | 0, m => m
  | count + 1, m => appendElements width value (index + 1) count (m.append width (value index))

/-- Places a new buffer behind everything that is already in memory. -/
def allocate (m : Memory) (element : ScalarType) (count : Nat) (value : Nat → UInt64) :
    Memory × Buffer :=
  let start := UInt64.ofNat m.size
  (appendElements element.size value 0 count m, ⟨element, start, count⟩)

end Memory

end Elementwise
