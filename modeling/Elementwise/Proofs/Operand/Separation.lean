import Elementwise.Operand.Binding
import Elementwise.Proofs.Memory.Store
import Mathlib.Data.List.Perm.Basic

/-!
Calls on separate elements. If no output element shares a byte with another one or with an input, a
call does not see the results of other calls, and the order of the calls does not matter.
-/

namespace Elementwise

namespace Binding

/-- The addresses of the bytes that a call at an index writes. -/
def outputBytes (b : Binding) (index : Nat) : List UInt64 :=
  Memory.bytesAt (b.outputAddress index) b.outputSize

/-- The addresses of the bytes that a call at an index reads. -/
def inputBytes (b : Binding) (index : Nat) : List UInt64 :=
  (List.zipWith (fun (t : ScalarType) address => Memory.bytesAt address t.size)
    b.kernel.signature.inputs (b.inputAddresses index)).flatten

/-- The outputs of the first `elements` indices share no byte with each other or with an input. -/
structure Separate (b : Binding) (elements : Nat) : Prop where
  outputs : ∀ i < elements, ∀ j < elements, i ≠ j →
    List.Disjoint (b.outputBytes i) (b.outputBytes j)
  inputs : ∀ i < elements, ∀ j < elements, List.Disjoint (b.outputBytes i) (b.inputBytes j)

instance (b : Binding) (elements : Nat) : Decidable (b.Separate elements) :=
  have (bytes others : List UInt64) : Decidable (List.Disjoint bytes others) :=
    -- bytes are compared one by one, not address by address over all of them
    have := List.decidableBAll (fun byte => byte ∉ others) bytes
    decidable_of_iff (∀ byte ∈ bytes, byte ∉ others) List.disjoint_left.symm
  decidable_of_iff
    ((∀ i < elements, ∀ j < elements, i ≠ j →
        List.Disjoint (b.outputBytes i) (b.outputBytes j)) ∧
      ∀ i < elements, ∀ j < elements, List.Disjoint (b.outputBytes i) (b.inputBytes j))
    ⟨fun h => ⟨h.1, h.2⟩, fun h => ⟨h.outputs, h.inputs⟩⟩

theorem zipWith_load_store (m : Memory) {address : UInt64} {width : Nat} (word : UInt64)
    (types : List ScalarType) (addresses : List UInt64)
    (h : List.Disjoint (Memory.bytesAt address width)
      (List.zipWith (fun (t : ScalarType) a => Memory.bytesAt a t.size) types addresses).flatten) :
    List.zipWith (fun (t : ScalarType) a => (m.store address width word).load a t.size) types
        addresses =
      List.zipWith (fun (t : ScalarType) a => m.load a t.size) types addresses := by
  induction types generalizing addresses with
  | nil => rfl
  | cons t types ih =>
      cases addresses with
      | nil => rfl
      | cons a addresses =>
          rw [List.zipWith_cons_cons, List.flatten_cons, List.disjoint_append_right] at h
          rw [List.zipWith_cons_cons, List.zipWith_cons_cons, ih addresses h.2,
            Memory.load_store_of_disjoint m h.1]

variable {b : Binding} {i j : Nat}

theorem evaluate_scatter (h : List.Disjoint (b.outputBytes i) (b.inputBytes j)) (m : Memory)
    (bits : UInt64) : b.evaluate (b.scatter m i bits) j = b.evaluate m j := by
  unfold evaluate
  congr 1
  exact zipWith_load_store m bits b.kernel.signature.inputs (b.inputAddresses j) h

theorem scatter_comm (h : List.Disjoint (b.outputBytes i) (b.outputBytes j)) (m : Memory)
    (x y : UInt64) : b.scatter (b.scatter m i x) j y = b.scatter (b.scatter m j y) i x :=
  Memory.store_store_comm m h x y

theorem read_invoke {address : UInt64} (h : address ∉ b.outputBytes i) (m : Memory) :
    (b.invoke m i).read address = m.read address :=
  Memory.read_store_of_not_mem m h _

theorem read_invokeAll {address : UInt64} {indices : List Nat}
    (h : ∀ i ∈ indices, address ∉ b.outputBytes i) (m : Memory) :
    (b.invokeAll m indices).read address = m.read address := by
  induction indices generalizing m with
  | nil => rfl
  | cons i indices ih =>
      have hrest := ih (fun j hj => h j (List.mem_cons_of_mem i hj)) (b.invoke m i)
      rw [invokeAll, List.foldl_cons]
      exact hrest.trans (read_invoke (h i List.mem_cons_self) m)

theorem invokeAll_append_singleton (m : Memory) (indices : List Nat) (index : Nat) :
    b.invokeAll m (indices ++ [index]) = b.invoke (b.invokeAll m indices) index :=
  List.foldl_concat ..

namespace Separate

variable {elements : Nat}

theorem invoke_comm (h : b.Separate elements) (hi : i < elements) (hj : j < elements)
    (m : Memory) : b.invoke (b.invoke m i) j = b.invoke (b.invoke m j) i := by
  by_cases hij : i = j
  · rw [hij]
  · unfold invoke
    rw [evaluate_scatter (h.inputs i hi j hj), evaluate_scatter (h.inputs j hj i hi)]
    exact scatter_comm (h.outputs i hi j hj hij) m _ _

/-- A call sees nothing of the calls before it. -/
theorem evaluate_invokeAll (h : b.Separate elements) (hj : j < elements) {indices : List Nat}
    (hindices : ∀ i ∈ indices, i < elements) (m : Memory) :
    b.evaluate (b.invokeAll m indices) j = b.evaluate m j := by
  induction indices generalizing m with
  | nil => rfl
  | cons i indices ih =>
      have hi := hindices i List.mem_cons_self
      have hrest := ih (fun k hk => hindices k (List.mem_cons_of_mem i hk)) (b.invoke m i)
      rw [invokeAll, List.foldl_cons]
      exact hrest.trans (evaluate_scatter (h.inputs i hi j hj) m _)

theorem invokeAll_perm (h : b.Separate elements) {indices others : List Nat}
    (hperm : indices.Perm others) (hindices : ∀ i ∈ indices, i < elements) (m : Memory) :
    b.invokeAll m indices = b.invokeAll m others :=
  hperm.foldl_eq' (fun i hi j hj n => h.invoke_comm (hindices i hi) (hindices j hj) n) m

end Separate

end Binding

end Elementwise
