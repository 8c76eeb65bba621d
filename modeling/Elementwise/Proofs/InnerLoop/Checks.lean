import Elementwise.InnerLoop
import Elementwise.Proofs.Operand.Checks
import Elementwise.Proofs.Scalar.Codes

/-!
The checks of the entry for foreign callers. Arguments without a null pointer, with a dimension that
is not negative and with known types for an input and the output pass all of them, also those that
are made behind the entry.
-/

namespace Elementwise

namespace InnerLoop

namespace Arguments

/-- The caller's side of the contract: the lists that are there have `count` entries. -/
structure Sized (a : Arguments) : Prop where
  pointers : ∀ bases ∈ a.pointers, bases.length = a.count
  steps : ∀ strides ∈ a.steps, strides.length = a.count
  types : ∀ codes ∈ a.types, codes.length = a.count

def HasNull (a : Arguments) : Prop :=
  a.function = none ∨ a.pointers = none ∨ a.dimension = none ∨ a.steps = none ∨ a.types = none

def Malformed (a : Arguments) : Prop :=
  (∃ d ∈ a.dimension, d < 0) ∨ a.count < 2 ∨ ∃ codes ∈ a.types, ∃ number ∈ codes, 5 < number

/-- The kernel with its operands and the number of indices that arguments stand for. -/
structure Describes (a : Arguments) (b : Binding) (n : Nat) : Prop where
  kernel : ∃ function signature, a.function = some function ∧ a.types = some signature.codes ∧
    b.kernel.signature = signature ∧ b.kernel.arity = signature.arity ∧
    b.kernel.eval = function a.data signature
  operands : ∃ bases strides, a.pointers = some bases ∧ a.steps = some strides ∧
    b.inputs ++ [b.output] = List.zipWith Pointer.mk bases strides
  elements : ∃ d, a.dimension = some d ∧ d.toInt = n

/-- Arguments stand for one kernel with its operands at most. -/
theorem Describes.unique {a : Arguments} {b b' : Binding} {n n' : Nat} (h : a.Describes b n)
    (h' : a.Describes b' n') : b = b' ∧ n = n' := by
  obtain ⟨function, signature, hfunction, htypes, hsignature, harity, heval⟩ := h.kernel
  obtain ⟨function', signature', hfunction', htypes', hsignature', harity', heval'⟩ := h'.kernel
  obtain ⟨bases, strides, hbases, hstrides, hpointers⟩ := h.operands
  obtain ⟨bases', strides', hbases', hstrides', hpointers'⟩ := h'.operands
  obtain ⟨d, hd, hn⟩ := h.elements
  obtain ⟨d', hd', hn'⟩ := h'.elements
  obtain rfl := Option.some.inj (hfunction.symm.trans hfunction')
  obtain rfl := Signature.codes_injective (Option.some.inj (htypes.symm.trans htypes'))
  obtain rfl := Option.some.inj (hbases.symm.trans hbases')
  obtain rfl := Option.some.inj (hstrides.symm.trans hstrides')
  obtain rfl := Option.some.inj (hd.symm.trans hd')
  obtain ⟨hinputs, houtput⟩ := List.append_inj' (hpointers.trans hpointers'.symm) rfl
  refine ⟨?_, Int.ofNat.inj (hn.symm.trans hn')⟩
  obtain ⟨⟨_, _, _⟩, inputs, output⟩ := b
  obtain ⟨⟨_, _, _⟩, inputs', output'⟩ := b'
  cases hsignature.trans hsignature'.symm
  cases harity.trans harity'.symm
  cases heval.trans heval'.symm
  cases hinputs
  cases houtput
  rfl

theorem exists_of_not_null {a : Arguments} (h : ¬ a.HasNull) :
    ∃ function bases d strides codes, a.function = some function ∧ a.pointers = some bases ∧
      a.dimension = some d ∧ a.steps = some strides ∧ a.types = some codes := by
  simp only [HasNull, not_or, Option.ne_none_iff_exists'] at h
  obtain ⟨⟨function, hfunction⟩, ⟨bases, hbases⟩, ⟨d, hd⟩, ⟨strides, hstrides⟩, codes, hcodes⟩ := h
  exact ⟨function, bases, d, strides, codes, hfunction, hbases, hd, hstrides, hcodes⟩

theorem malformed_iff {a : Arguments} (hsized : a.Sized) {d : Int64} {codes : List UInt8}
    (hd : a.dimension = some d) (hcodes : a.types = some codes) :
    a.Malformed ↔ d < 0 ∨ Signature.ofCodes? (codes.take a.count) = none := by
  have hcount := hsized.types codes hcodes
  rw [← hcount, List.take_length, ← Option.not_isSome_iff_eq_none, Signature.isSome_ofCodes?_iff,
    hcount]
  simp only [Malformed, hd, hcodes, Option.mem_some_iff, exists_eq_left', not_and_or, Nat.not_le,
    not_forall, UInt8.not_le, exists_prop]

end Arguments

variable {host : Host} {a : Arguments}

theorem check_of_null (h : a.HasNull) : check a = .error .nullPointer := by
  unfold check
  split
  · rename_i hfunction hpointers hdimension hsteps htypes
    simp [Arguments.HasNull, hfunction, hpointers, hdimension, hsteps, htypes] at h
  · rfl

theorem check_of_malformed (hsized : a.Sized) (hnull : ¬ a.HasNull) (h : a.Malformed) :
    check a = .error .badConfiguration := by
  obtain ⟨function, bases, d, strides, codes, hfunction, hbases, hd, hstrides, hcodes⟩ :=
    Arguments.exists_of_not_null hnull
  simp only [check, hfunction, hbases, hd, hstrides, hcodes]
  rcases (Arguments.malformed_iff hsized hd hcodes).mp h with hnegative | hunread
  · rw [if_pos hnegative]
  · rw [hunread]
    split <;> rfl

theorem ofSettings?_eq_ok (hthreads : host.threadless = none) (threads : Nat) :
    Executor.ofSettings? (settings threads) host =
      .ok ⟨settings threads, .ofSettings (settings threads), host⟩ := by
  have hworkers : (settings threads).workers ≠ some 0 := by
    unfold settings
    split
    · exact fun hsome => by cases hsome
    · rename_i hpos
      simpa [Settings.withWorkers] using hpos
  simp only [Executor.ofSettings?, hthreads, hworkers, if_false]

theorem exists_check_eq_ok (hsized : a.Sized) (hnull : ¬ a.HasNull) (hmalformed : ¬ a.Malformed) :
    ∃ function signature bases strides d, a.function = some function ∧
      a.types = some signature.codes ∧ a.pointers = some bases ∧ a.steps = some strides ∧
      a.dimension = some d ∧ 0 < signature.arity ∧ 0 ≤ d.toInt ∧
      check a = .ok ⟨kernel function a.data signature, bases, strides, d.toInt.toNat⟩ := by
  obtain ⟨function, bases, d, strides, codes, hfunction, hbases, hd, hstrides, hcodes⟩ :=
    Arguments.exists_of_not_null hnull
  rw [Arguments.malformed_iff hsized hd hcodes, not_or] at hmalformed
  obtain ⟨hsign, hread⟩ := hmalformed
  obtain ⟨signature, hsignature⟩ := Option.ne_none_iff_exists'.mp hread
  have hcheck : check a =
      .ok ⟨kernel function a.data signature, bases, strides, d.toInt.toNat⟩ := by
    simp only [check, hfunction, hbases, hd, hstrides, hcodes, if_neg hsign, hsignature,
      List.take_of_length_le (Nat.le_of_eq (hsized.pointers bases hbases)),
      List.take_of_length_le (Nat.le_of_eq (hsized.steps strides hstrides))]
  rw [← hsized.types codes hcodes, List.take_length, Signature.ofCodes?_eq_some_iff]
    at hsignature
  obtain ⟨rfl, hinputs⟩ := hsignature
  refine ⟨function, signature, bases, strides, d, hfunction, hcodes, hbases, hstrides, hd,
    List.length_pos_iff.mpr hinputs, ?_, hcheck⟩
  exact Int.not_lt.mp fun hnegative => hsign (Int64.lt_iff_toInt_lt.mpr hnegative)

/-- Arguments that are there and well formed pass every check on the way to a launch. -/
theorem checks_pass (hthreads : host.threadless = none) (hsized : a.Sized)
    (hnull : ¬ a.HasNull) (hmalformed : ¬ a.Malformed) :
    ∃ checked executor operands binding, check a = .ok checked ∧
      Executor.ofSettings? (settings a.threads) host = .ok executor ∧
      Operands.ofPointers? checked.bases checked.strides = .ok operands ∧
      Binding.ofOperands? checked.kernel operands = .ok binding ∧
      a.Describes binding checked.elements := by
  obtain ⟨function, signature, bases, strides, d, hfunction, hcodes, hbases, hstrides, hd, hpos,
    hsign, hcheck⟩ := exists_check_eq_ok hsized hnull hmalformed
  have hlengthBases := hsized.pointers bases hbases
  have hlengthStrides := hsized.steps strides hstrides
  -- the codes are as many as the operands, so that the signature has an input for all but the last
  have harity : signature.arity + 1 = a.count := by
    rw [← signature.length_codes, hsized.types _ hcodes]
  obtain ⟨operands, hoperands⟩ :=
    Operands.exists_ofPointers? (hlengthBases.trans hlengthStrides.symm) (by omega)
  have hpointers := Operands.inputs_append_output hoperands
  have hlengthInputs : operands.inputs.length = (kernel function a.data signature).arity := by
    have hcount := congrArg List.length hpointers
    rw [List.length_append, List.length_singleton, List.length_zipWith, hlengthBases,
      hlengthStrides, Nat.min_self, ← harity] at hcount
    exact Nat.succ.inj hcount
  obtain ⟨binding, hbinding⟩ := Binding.exists_ofOperands? hlengthInputs
  obtain ⟨hkernel, hinputs, houtput⟩ := Binding.eq_of_ofOperands? hbinding
  refine ⟨_, _, operands, binding, hcheck, ofSettings?_eq_ok hthreads a.threads, hoperands,
    hbinding, ?_⟩
  exact {
    kernel := ⟨function, signature, hfunction, hcodes, by rw [hkernel]; exact ⟨rfl, rfl, rfl⟩⟩
    operands := ⟨bases, strides, hbases, hstrides, by rw [hinputs, houtput, hpointers]⟩
    elements := ⟨d, hd, (Int.toNat_of_nonneg hsign).symm⟩ }

end InnerLoop

end Elementwise
