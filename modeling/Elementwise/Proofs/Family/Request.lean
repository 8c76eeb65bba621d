import Elementwise.Family
import Elementwise.Proofs.Executor.Call
import Elementwise.Proofs.Job.Confinement
import Elementwise.Proofs.Operand.Checks
import Elementwise.Proofs.Operand.View

/-!
Calls of a family on views of buffers. Once a call has passed the checks, every address that it
computes is that of an element of the right type in the right buffer, the output elements share no
byte, and what lies between them in their buffer is never written.
-/

namespace Elementwise

/-- A kernel bound to views keeps to their buffers for the first `n` indices. Each input is read
from a slice, and the output goes to the slice `target`. -/
structure Binding.KeepsTo (b : Binding) (n : Nat) (slices : List Slice) (inputs : List View)
    (target : Slice) : Prop where
  count : b.inputs.length = slices.length
  read : ∀ i < n, ∀ (k : Nat) (slice : Slice) (view : View),
    slices[k]? = some slice → inputs[k]? = some view →
      (b.inputAddresses i)[k]? = some (slice.buffer.address (view.position slice.step i)) ∧
      view.position slice.step i < slice.buffer.count ∧
      b.kernel.signature.inputs[k]? = some slice.buffer.element
  written : ∀ i < n, b.outputAddress i = target.buffer.address (i * target.step) ∧
    i * target.step < target.buffer.count
  outputType : b.kernel.signature.output = target.buffer.element
  apart : ∀ i < n, ∀ j < n, i ≠ j → List.Disjoint (b.outputBytes i) (b.outputBytes j)
  /-- An element between the multiples of the step shares no byte with an output. -/
  between : ∀ position < target.buffer.count, ¬ target.step ∣ position → ∀ i < n,
    List.Disjoint (Memory.bytesAt (target.buffer.address position) target.buffer.element.size)
      (b.outputBytes i)

namespace Family

theorem length_of_lengthFault? {n position : Nat} {views : List View}
    (h : lengthFault? n position views = none) :
    ∀ view ∈ views, view.length = n ∨ view.length = 1 := by
  induction views generalizing position with
  | nil =>
      intro view hview
      cases hview
  | cons first rest ih =>
      simp only [lengthFault?] at h
      split at h
      · cases h
      · rename_i hfits
        intro view hview
        rcases List.mem_cons.mp hview with rfl | hrest
        · by_contra hneither
          rw [not_or] at hneither
          exact hfits hneither
        · exact ih h view hrest

/-- What a call is made of that has passed the checks. -/
structure Accepted (f : Family) (inputs : List View) (output : View) (request : Request) : Prop
    where
  elements : request.elements = output.length
  kernel : request.kernel ∈ f.variants
  inputTypes : request.kernel.signature.inputs = inputs.map View.element
  outputType : request.kernel.signature.output = output.element
  lengths : ∀ view ∈ inputs, view.length = output.length ∨ view.length = 1
  inputs : request.operands.inputs = inputs.map (View.inputPointer · output.length)
  output : request.operands.output = output.outputPointer

theorem accepted_of_request? {f : Family} {inputs : List View} {output : View} {request : Request}
    (h : f.request? inputs output = .ok request) : f.Accepted inputs output request := by
  simp only [request?] at h
  split at h
  · cases h
  · split at h
    · cases h
    · rename_i variant hresolve
      split at h
      · cases h
      · cases h
      · rename_i kernel hkernel hlengths
        split at h
        · cases h
        · rename_i operands hoperands
          cases h
          obtain ⟨hinputs, houtput⟩ := Operands.eq_of_ofPointers? hoperands
          obtain ⟨hlt, hmatches, -⟩ := List.findIdx?_eq_some_iff_getElem.mp hresolve
          have hsignature : f.signatures[variant]? = some kernel.signature := by
            rw [signatures, List.getElem?_map, hkernel]
            rfl
          rw [(List.getElem?_eq_some_iff.mp hsignature).2] at hmatches
          obtain ⟨htypes, htype⟩ := of_decide_eq_true hmatches
          exact {
            elements := rfl
            kernel := List.mem_of_getElem? hkernel
            inputTypes := htypes
            outputType := htype
            lengths := length_of_lengthFault? hlengths
            inputs := hinputs
            output := houtput }

namespace Accepted

variable {f : Family} {slices : List Slice} {inputs : List View} {target : Slice} {output : View}
  {request : Request} {binding : Binding}

theorem length_inputs (h : f.Accepted inputs output request) :
    request.operands.inputs.length = request.kernel.signature.arity := by
  rw [h.inputs, Signature.arity, h.inputTypes, List.length_map, List.length_map]

theorem reads (h : f.Accepted inputs output request) {i k : Nat} {slice : Slice} {view : View}
    (hi : i < request.elements) (hview : inputs[k]? = some view) (hreads : view.Reads slice) :
    (request.operands.inputs.map fun pointer => pointer.address i)[k]? =
        some (slice.buffer.address (view.position slice.step i)) ∧
      view.position slice.step i < slice.buffer.count ∧
      request.kernel.signature.inputs[k]? = some slice.buffer.element := by
  rw [h.elements] at hi
  obtain ⟨haddress, hinside⟩ :=
    hreads.address_inputPointer (h.lengths view (List.mem_of_getElem? hview)) hi
  refine ⟨?_, hinside, ?_⟩
  · rw [h.inputs, List.getElem?_map, List.getElem?_map, hview, ← haddress]
    rfl
  · rw [h.inputTypes, List.getElem?_map, hview, ← hreads.element_eq]
    rfl

theorem keepsTo (h : f.Accepted inputs output request)
    (hbinding : Binding.ofOperands? request.kernel request.operands = .ok binding)
    (hinputs : List.Forall₂ View.Reads slices inputs) (houtput : output.Covers target)
    (hbytes : target.buffer.element.size * target.buffer.count < 2 ^ 63) :
    binding.KeepsTo request.elements slices inputs target := by
  obtain ⟨hkernel, hpointers, hpointer⟩ := Binding.eq_of_ofOperands? hbinding
  have hposition {i : Nat} (hi : i < request.elements) :
      i * target.step < target.buffer.count := by
    rw [h.elements] at hi
    exact houtput.lt_length_iff.mp hi
  have haddress (i : Nat) :
      binding.outputAddress i = target.buffer.address (i * target.step) := by
    rw [Binding.outputAddress, hpointer, h.output]
    exact houtput.address_outputPointer i
  have htype : binding.kernel.signature.output = target.buffer.element := by
    rw [hkernel, h.outputType, houtput.element_eq]
  have hbytesAt (i : Nat) : binding.outputBytes i =
      Memory.bytesAt (target.buffer.address (i * target.step)) target.buffer.element.size := by
    rw [Binding.outputBytes, Binding.outputSize, haddress, htype]
  exact {
    count := by
      rw [hpointers, h.inputs, List.length_map, hinputs.length_eq]
    read := by
      intro i hi k slice view hslice hview
      obtain ⟨hk, rfl⟩ := List.getElem?_eq_some_iff.mp hslice
      obtain ⟨hk', rfl⟩ := List.getElem?_eq_some_iff.mp hview
      rw [Binding.inputAddresses, hpointers, hkernel]
      exact h.reads hi hview ((List.forall₂_iff_get.mp hinputs).2 k hk hk')
    written := fun i hi => ⟨haddress i, hposition hi⟩
    outputType := htype
    apart := by
      intro i hi j hj hne
      rw [hbytesAt, hbytesAt]
      refine Buffer.disjoint_bytes hbytes (hposition hi) (hposition hj) ?_
      intro heq
      exact hne (Nat.eq_of_mul_eq_mul_right houtput.eq.1 heq)
    between := by
      intro position hlt hstep i hi
      rw [hbytesAt]
      refine Buffer.disjoint_bytes hbytes hlt (hposition hi) ?_
      rintro rfl
      exact hstep (Nat.dvd_mul_left target.step i) }

end Accepted

/-- A call that has passed the checks keeps to the buffers of its views, and a kernel of the arity
of its signature can be bound. In every state that its job can get into, whatever happens to the
workers, the elements between the multiples of the output's step are as they were. -/
theorem accepted_call_keeps_to_buffers (f : Family) (slices : List Slice) (inputs : List View)
    (target : Slice) (output : View) (request : Request)
    (hinputs : List.Forall₂ View.Reads slices inputs) (houtput : output.Covers target)
    (hbytes : target.buffer.element.size * target.buffer.count < 2 ^ 63)
    (hrequest : f.request? inputs output = .ok request) :
    request.kernel ∈ f.variants ∧ request.elements = output.length ∧
      (request.kernel.arity = request.kernel.signature.arity →
        ∃ binding, Binding.ofOperands? request.kernel request.operands = .ok binding) ∧
      ∀ binding, Binding.ofOperands? request.kernel request.operands = .ok binding →
        binding.KeepsTo request.elements slices inputs target ∧
        ∀ (e : Executor) (memory : Memory) (events : List Event) (c : Course),
          (e.job request binding).follow events
            (e.opening memory (e.partition request.elements)) = some c →
          ∀ position < target.buffer.count, ¬ target.step ∣ position →
            target.buffer.get c.state.memory position = target.buffer.get memory position := by
  have h := accepted_of_request? hrequest
  refine ⟨h.kernel, h.elements, ?_, ?_⟩
  · intro harity
    exact Binding.exists_ofOperands? (h.length_inputs.trans harity.symm)
  · intro binding hbinding
    have hkeeps := h.keepsTo hbinding hinputs houtput hbytes
    refine ⟨hkeeps, ?_⟩
    intro e memory events c hfollow position hlt hstep
    have hconfined : c.Confined (e.job request binding) memory request.elements :=
      (Course.Confined.keeps _ memory _).follow
        ⟨e.balanced_opening memory request.elements, fun _ _ => rfl⟩ hfollow
    refine Memory.load_congr fun byte hbyte => hconfined.kept byte ?_
    intro i hi hmem
    exact hkeeps.between position hlt hstep i hi hbyte hmem

/-- Every other byte of a row and one byte that is repeated are added into every other byte of
another row. -/
theorem accepted_call_keeps_to_buffers_of_every_other :
    ∃ row sums request binding,
      View.every? ⟨.int8, 0, 5⟩ 2 = .ok row ∧ View.every? ⟨.int8, 6, 6⟩ 2 = .ok sums ∧
      request? ⟨2, [.ofFormula .add .int8]⟩ [row, .first ⟨.int8, 5, 1⟩] sums = .ok request ∧
      Binding.ofOperands? request.kernel request.operands = .ok binding ∧
      (binding.inputAddresses 2)[0]? = some 4 ∧ (binding.inputAddresses 2)[1]? = some 5 ∧
      binding.outputAddress 2 = 10 := by
  let slices : List Slice := [⟨⟨.int8, 0, 5⟩, 2⟩, ⟨⟨.int8, 5, 1⟩, 1⟩]
  let target : Slice := ⟨⟨.int8, 6, 6⟩, 2⟩
  let row : View := ⟨.int8, 0, 2, 3⟩
  let sums : View := ⟨.int8, 6, 2, 3⟩
  have hinputs : List.Forall₂ View.Reads slices [row, .first ⟨.int8, 5, 1⟩] :=
    .cons (.covers (.every rfl)) (.cons (.first ⟨⟨.int8, 5, 1⟩, 1⟩ (by decide)) .nil)
  have houtput : sums.Covers target := .every rfl
  obtain ⟨request, hrequest⟩ : ∃ request, request? ⟨2, [.ofFormula .add .int8]⟩
      [row, .first ⟨.int8, 5, 1⟩] sums = .ok request := ⟨_, rfl⟩
  obtain ⟨hkernel, helements, hbinding, hall⟩ := accepted_call_keeps_to_buffers _ slices _ target
    sums request hinputs houtput (by decide) hrequest
  have harity : request.kernel.arity = request.kernel.signature.arity := by
    rw [List.mem_singleton.mp hkernel]
    rfl
  obtain ⟨binding, hbinding⟩ := hbinding harity
  have hkeeps := (hall binding hbinding).1
  have htwo : 2 < request.elements := helements ▸ (by decide)
  refine ⟨row, sums, request, binding, rfl, rfl, hrequest, hbinding, ?_, ?_, ?_⟩
  · exact (hkeeps.read 2 htwo 0 _ _ rfl rfl).1
  · exact (hkeeps.read 2 htwo 1 _ _ rfl rfl).1
  · exact (hkeeps.written 2 htwo).1

end Family

end Elementwise
