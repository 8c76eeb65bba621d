import Elementwise.Operand.View
import Elementwise.Proofs.Memory.Store
import Mathlib.Algebra.Group.Nat.Defs
import Mathlib.Data.List.Basic

/-!
Where the elements of a view are. The addresses of a view are those of elements of its buffer, at
the multiples of its step, however its stride was wrapped; and elements at different positions share
no byte.
-/

namespace Elementwise

namespace Buffer

variable {b : Buffer} {i j : Nat}

theorem disjoint_bytes (hbytes : b.element.size * b.count < 2 ^ 63) (hi : i < b.count)
    (hj : j < b.count) (hne : i ≠ j) :
    List.Disjoint (Memory.bytesAt (b.address i) b.element.size)
      (Memory.bytesAt (b.address j) b.element.size) := by
  have hoffset {k x : Nat} (hk : k < b.count) (hx : x < b.element.size) :
      b.element.size * k + x < 2 ^ 64 := by
    have hle : b.element.size * (k + 1) ≤ b.element.size * b.count :=
      Nat.mul_le_mul_left b.element.size hk
    rw [Nat.mul_succ] at hle
    omega
  intro byte hbyte hbyte'
  obtain ⟨x, hx, rfl⟩ := Memory.mem_bytesAt.mp hbyte
  obtain ⟨y, hy, heq⟩ := Memory.mem_bytesAt.mp hbyte'
  simp only [address, UInt64.add_assoc, ← UInt64.ofNat_add] at heq
  have hwords := congrArg UInt64.toNat (UInt64.add_right_inj b.start |>.mp heq)
  rw [UInt64.toNat_ofNat_of_lt' (hoffset hi hx), UInt64.toNat_ofNat_of_lt' (hoffset hj hy)]
    at hwords
  have hposition {k z : Nat} (hz : z < b.element.size) :
      (b.element.size * k + z) / b.element.size = k := by
    rw [Nat.mul_add_div b.element.size_pos, Nat.div_eq_of_lt hz, Nat.add_zero]
  apply hne
  rw [← hposition (k := i) hx, hwords, hposition hy]

end Buffer

theorem Pointer.address_ofNat (base : UInt64) (stride index : Nat) :
    (Pointer.mk base (Int64.ofNat stride)).address index =
      base + UInt64.ofNat (index * stride) := by
  rw [address, Int64.toUInt64_ofNat', UInt64.ofNat_mul]

/-- A buffer of which every so-manyth element is meant. -/
structure Slice where
  buffer : Buffer
  step : Nat

namespace View

/-- The view takes the elements of the buffer at the multiples of the step. -/
inductive Covers : Slice → View → Prop where
  | whole (b : Buffer) : Covers ⟨b, 1⟩ (whole b)
  | every {b : Buffer} {step : Nat} {view : View} (h : every? b step = .ok view) :
      Covers ⟨b, step⟩ view

/-- An input may also repeat the first element. -/
inductive Reads : Slice → View → Prop where
  | covers {slice : Slice} {view : View} (h : Covers slice view) : Reads slice view
  | first (slice : Slice) (h : 0 < slice.buffer.count) : Reads slice (first slice.buffer)

/-- The position in the buffer at which an input is read for an index. -/
def position (view : View) (step index : Nat) : Nat :=
  if view.length = 1 then 0 else index * step

variable {slice : Slice} {view : View}

theorem Covers.eq (h : Covers slice view) :
    0 < slice.step ∧
      view = ⟨slice.buffer.element, slice.buffer.start,
        Int64.ofNat (slice.buffer.element.size * slice.step),
        (slice.buffer.count + (slice.step - 1)) / slice.step⟩ := by
  cases h with
  | whole b =>
      refine ⟨Nat.one_pos, ?_⟩
      rw [Nat.mul_one, Nat.sub_self, Nat.add_zero, Nat.div_one]
      rfl
  | every h =>
      unfold every? at h
      split at h
      · cases h
      · rename_i hstep
        cases h
        exact ⟨Nat.pos_of_ne_zero hstep, rfl⟩

theorem Covers.lt_length_iff (h : Covers slice view) {index : Nat} :
    index < view.length ↔ index * slice.step < slice.buffer.count := by
  obtain ⟨hstep, rfl⟩ := h.eq
  change index + 1 ≤ (slice.buffer.count + (slice.step - 1)) / slice.step ↔ _
  rw [Nat.le_div_iff_mul_le hstep, Nat.succ_mul]
  omega

theorem Covers.address_outputPointer (h : Covers slice view) (index : Nat) :
    view.outputPointer.address index = slice.buffer.address (index * slice.step) := by
  obtain ⟨-, rfl⟩ := h.eq
  rw [outputPointer, Pointer.address_ofNat, Buffer.address, Nat.mul_left_comm]

theorem Covers.element_eq (h : Covers slice view) : view.element = slice.buffer.element := by
  obtain ⟨-, rfl⟩ := h.eq
  rfl

theorem Reads.element_eq (h : Reads slice view) : view.element = slice.buffer.element := by
  cases h with
  | covers h => exact h.element_eq
  | first => rfl

theorem Reads.start_eq (h : Reads slice view) : view.start = slice.buffer.start := by
  cases h with
  | covers h =>
      obtain ⟨-, rfl⟩ := h.eq
      rfl
  | first => rfl

theorem Reads.count_pos (h : Reads slice view) (hlength : view.length = 1) :
    0 < slice.buffer.count := by
  cases h with
  | covers h =>
      have hzero : 0 < view.length := by omega
      rw [h.lt_length_iff, Nat.zero_mul] at hzero
      exact hzero
  | first hpos => exact hpos

theorem Reads.covers_of_length_ne (h : Reads slice view) (hlength : view.length ≠ 1) :
    Covers slice view := by
  cases h with
  | covers h => exact h
  | first => exact absurd rfl hlength

/-- An input of the right length or of one element is read inside its buffer. -/
theorem Reads.address_inputPointer (h : Reads slice view) {n index : Nat}
    (hlength : view.length = n ∨ view.length = 1) (hindex : index < n) :
    (view.inputPointer n).address index =
        slice.buffer.address (view.position slice.step index) ∧
      view.position slice.step index < slice.buffer.count := by
  by_cases hone : view.length = 1
  · rw [position, if_pos hone]
    refine ⟨?_, h.count_pos hone⟩
    have hzero : UInt64.ofNat index * (view.inputPointer n).stride.toUInt64 = 0 := by
      by_cases hn : n = 1
      · have hfirst : index = 0 := by omega
        rw [hfirst]
        exact UInt64.zero_mul
      · rw [inputPointer, if_pos ⟨hone, hn⟩]
        exact UInt64.mul_zero
    rw [Pointer.address, hzero, Buffer.address, Nat.mul_zero]
    exact congrArg (· + 0) h.start_eq
  · have hcovers := h.covers_of_length_ne hone
    have hn : view.length = n := hlength.resolve_right hone
    have hpointer : view.inputPointer n = view.outputPointer := by
      rw [inputPointer, if_neg fun hboth => hone hboth.1]
      rfl
    rw [position, if_neg hone, hpointer]
    refine ⟨hcovers.address_outputPointer index, ?_⟩
    rw [← hcovers.lt_length_iff, hn]
    exact hindex

end View

end Elementwise
