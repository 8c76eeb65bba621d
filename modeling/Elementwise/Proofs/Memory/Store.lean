import Elementwise.Memory.Basic
import Mathlib.Data.List.Basic

/-!
Stores to separate bytes. A store reaches only the bytes of its element: what is loaded from other
bytes stays the same, and stores to separate elements may change places.
-/

namespace Elementwise

namespace Memory

/-- The addresses of the `width` bytes from an address on. -/
def bytesAt (address : UInt64) : Nat → List UInt64
  | 0 => []
  | width + 1 => address :: bytesAt (address + 1) width

theorem mem_bytesAt {address byte : UInt64} {width : Nat} :
    byte ∈ bytesAt address width ↔ ∃ i < width, byte = address + UInt64.ofNat i := by
  induction width generalizing address with
  | zero => simp [bytesAt]
  | succ width ih =>
      rw [bytesAt, List.mem_cons, ih]
      constructor
      · rintro (rfl | ⟨i, hi, rfl⟩)
        · exact ⟨0, Nat.succ_pos width, by simp⟩
        · refine ⟨i + 1, Nat.succ_lt_succ hi, ?_⟩
          rw [UInt64.ofNat_add, UInt64.add_assoc, UInt64.add_comm (UInt64.ofNat i)]
          rfl
      · rintro ⟨i, hi, rfl⟩
        cases i with
        | zero => exact .inl (by simp)
        | succ i =>
            refine .inr ⟨i, Nat.lt_of_succ_lt_succ hi, ?_⟩
            rw [UInt64.ofNat_add, UInt64.add_assoc, UInt64.add_comm (UInt64.ofNat i)]
            rfl

variable (m : Memory) {a b : UInt64}

theorem read_eq (a : UInt64) : m.read a = (m.bytes.data[a.toNat]?).getD 0 := by
  unfold read
  split
  · rename_i ha
    have hdata : a.toNat < m.bytes.data.size := ha
    rw [Array.getElem?_eq_getElem hdata]
    rfl
  · rename_i ha
    have hdata : m.bytes.data.size ≤ a.toNat := Nat.le_of_not_lt ha
    rw [Array.getElem?_eq_none hdata]
    rfl

theorem write_eq (a : UInt64) (byte : UInt8) :
    m.write a byte = ⟨⟨m.bytes.data.setIfInBounds a.toNat byte⟩⟩ := by
  unfold write
  split
  · rename_i ha
    have hdata : a.toNat < m.bytes.data.size := ha
    rw [Array.setIfInBounds, dif_pos hdata]
    rfl
  · rename_i ha
    have hdata : m.bytes.data.size ≤ a.toNat := Nat.le_of_not_lt ha
    rw [Array.setIfInBounds_eq_of_size_le hdata]

theorem read_write_of_ne (h : a ≠ b) (byte : UInt8) : (m.write b byte).read a = m.read a := by
  have hne : b.toNat ≠ a.toNat := fun heq => h (UInt64.toNat_inj.mp heq).symm
  rw [write_eq, read_eq, read_eq, Array.getElem?_setIfInBounds_ne hne]

theorem write_write_comm (h : a ≠ b) (x y : UInt8) :
    (m.write a x).write b y = (m.write b y).write a x := by
  have hne : a.toNat ≠ b.toNat := fun heq => h (UInt64.toNat_inj.mp heq)
  simp only [write_eq]
  rw [Array.setIfInBounds_comm x y hne]

theorem store_write_comm {width : Nat} (h : b ∉ bytesAt a width) (word : UInt64) (byte : UInt8) :
    (m.store a width word).write b byte = (m.write b byte).store a width word := by
  induction width generalizing m a word with
  | zero => rfl
  | succ width ih =>
      rw [bytesAt, List.mem_cons, not_or] at h
      rw [store, ih (m.write a word.toUInt8) h.2, write_write_comm m (Ne.symm h.1), store]

theorem store_store_comm {v w : Nat} (h : List.Disjoint (bytesAt a v) (bytesAt b w))
    (x y : UInt64) : (m.store a v x).store b w y = (m.store b w y).store a v x := by
  induction w generalizing m b y with
  | zero => rfl
  | succ w ih =>
      rw [bytesAt, List.disjoint_cons_right] at h
      rw [store, store_write_comm m h.1, ih (m.write b y.toUInt8) h.2, store]

theorem read_store_of_not_mem {width : Nat} (h : b ∉ bytesAt a width) (word : UInt64) :
    (m.store a width word).read b = m.read b := by
  induction width generalizing m a word with
  | zero => rfl
  | succ width ih =>
      rw [bytesAt, List.mem_cons, not_or] at h
      rw [store, ih (m.write a word.toUInt8) h.2, read_write_of_ne m h.1]

theorem load_store_of_disjoint {v w : Nat} (h : List.Disjoint (bytesAt a v) (bytesAt b w))
    (word : UInt64) : (m.store a v word).load b w = m.load b w := by
  induction w generalizing b with
  | zero => rfl
  | succ w ih =>
      rw [bytesAt, List.disjoint_cons_right] at h
      rw [load, read_store_of_not_mem m h.1, ih h.2, load]

theorem load_congr {m m' : Memory} {width : Nat}
    (h : ∀ byte ∈ bytesAt a width, m'.read byte = m.read byte) :
    m'.load a width = m.load a width := by
  induction width generalizing a with
  | zero => rfl
  | succ width ih =>
      have hfirst := h a List.mem_cons_self
      have hrest := ih fun byte hbyte => h byte (List.mem_cons_of_mem a hbyte)
      rw [load, load, hfirst, hrest]

end Memory

end Elementwise
