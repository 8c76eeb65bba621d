/-!
Byte memory. Addresses are 64-bit words and wrap around; the bytes in use are those below the size.
Reading elsewhere gives zero and writing elsewhere changes nothing, so every address is meaningful.
Elements are stored little-endian at any address, aligned or not.
-/

namespace Elementwise

/-- The bytes of a memory, from address zero up. -/
structure Memory where
  bytes : ByteArray

namespace Memory

def empty : Memory := ⟨ByteArray.empty⟩

instance : Inhabited Memory := ⟨empty⟩

def size (m : Memory) : Nat := m.bytes.size

def read (m : Memory) (address : UInt64) : UInt8 :=
  if h : address.toNat < m.bytes.size then m.bytes[address.toNat] else 0

def write (m : Memory) (address : UInt64) (byte : UInt8) : Memory :=
  if h : address.toNat < m.bytes.size then ⟨m.bytes.set address.toNat byte h⟩ else m

/-- The little-endian word in the `width` bytes from an address on. -/
def load (m : Memory) (address : UInt64) : Nat → UInt64
  | 0 => 0
  | width + 1 => (m.read address).toUInt64 ||| m.load (address + 1) width <<< 8

/-- Stores the low `width` bytes of a word, least significant first. -/
def store (m : Memory) (address : UInt64) : Nat → UInt64 → Memory
  | 0, _ => m
  | width + 1, word => (m.write address word.toUInt8).store (address + 1) width (word >>> 8)

/-- Adds the low `width` bytes of a word at the end. -/
def append (m : Memory) : Nat → UInt64 → Memory
  | 0, _ => m
  | width + 1, word => append ⟨m.bytes.push word.toUInt8⟩ width (word >>> 8)

@[simp] theorem size_write (m : Memory) (address : UInt64) (byte : UInt8) :
    (m.write address byte).size = m.size := by
  unfold write
  split
  · exact Array.size_set ..
  · rfl

@[simp] theorem size_store (m : Memory) (address : UInt64) (width : Nat) (word : UInt64) :
    (m.store address width word).size = m.size := by
  induction width generalizing m address word with
  | zero => rfl
  | succ width ih => simp [store, ih]

end Memory

end Elementwise
