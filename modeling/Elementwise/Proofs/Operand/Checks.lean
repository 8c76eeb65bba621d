import Elementwise.Operand.Binding

/-!
What passes the checks of operands. Pointers pass if there is a stride for each and one of them is
left for an input, and a kernel takes operands that have an input for each of its own.
-/

namespace Elementwise

namespace Operands

variable {bases : List UInt64} {strides : List Int64} {operands : Operands}

theorem inputs_append_output (h : ofPointers? bases strides = .ok operands) :
    operands.inputs ++ [operands.output] = List.zipWith Pointer.mk bases strides := by
  unfold ofPointers? at h
  split at h
  · cases h
  · split at h
    · rename_i output input rest hreverse
      cases h
      rw [← List.reverse_reverse (List.zipWith Pointer.mk bases strides), hreverse]
      exact List.reverse_cons.symm
    · cases h

theorem exists_ofPointers? (hlengths : bases.length = strides.length) (htwo : 2 ≤ bases.length) :
    ∃ operands, ofPointers? bases strides = .ok operands := by
  unfold ofPointers?
  rw [if_neg (fun hne => hne hlengths)]
  split
  · exact ⟨_, rfl⟩
  · rename_i hshort
    have hcount : (List.zipWith Pointer.mk bases strides).reverse.length = bases.length := by
      simp [hlengths]
    generalize (List.zipWith Pointer.mk bases strides).reverse = pointers at hshort hcount
    match pointers, hcount with
    | [], hcount => simp at hcount; omega
    | [_], hcount => simp at hcount; omega
    | output :: input :: rest, _ => exact absurd rfl (hshort output input rest)

theorem eq_of_ofPointers? {inputs : List Pointer} {output : Pointer}
    (h : ofPointers? ((inputs ++ [output]).map Pointer.base)
      ((inputs ++ [output]).map Pointer.stride) = .ok operands) :
    operands.inputs = inputs ∧ operands.output = output := by
  have hzip : List.zipWith Pointer.mk ((inputs ++ [output]).map Pointer.base)
      ((inputs ++ [output]).map Pointer.stride) = inputs ++ [output] := by
    rw [List.zipWith_map, List.zipWith_self]
    exact List.map_id _
  obtain ⟨hinputs, houtput⟩ := List.append_inj' ((inputs_append_output h).trans hzip) rfl
  exact ⟨hinputs, (List.cons.inj houtput).1⟩

end Operands

theorem Binding.eq_of_ofOperands? {kernel : Kernel} {operands : Operands} {binding : Binding}
    (h : ofOperands? kernel operands = .ok binding) :
    binding.kernel = kernel ∧ binding.inputs = operands.inputs ∧
      binding.output = operands.output := by
  unfold ofOperands? at h
  split at h
  · cases h
  · split at h
    · cases h
      exact ⟨rfl, rfl, rfl⟩
    · cases h

theorem Binding.exists_ofOperands? {kernel : Kernel} {operands : Operands}
    (h : operands.inputs.length = kernel.arity) :
    ∃ binding, ofOperands? kernel operands = .ok binding := by
  have harity : kernel.arity ≠ 0 := by
    rw [← h]
    exact fun hzero => operands.inputs_ne_nil (List.eq_nil_of_length_eq_zero hzero)
  unfold ofOperands?
  rw [dif_neg harity, dif_pos h]
  exact ⟨_, rfl⟩

end Elementwise
