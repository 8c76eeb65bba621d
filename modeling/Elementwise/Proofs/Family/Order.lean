import Elementwise.Proofs.Executor.Refusal
import Elementwise.Proofs.Executor.Sequential
import Elementwise.Proofs.Family.Call

/-!
The order in which the variants of a family are given. It decides neither whether there is a family
nor what becomes of a call, since the variants fit in with one another in any order and at most one
of them has the types of the operands.
-/

namespace Elementwise

/-- No element of one buffer shares a byte with an element of the other. -/
def Buffer.Apart (a b : Buffer) : Prop :=
  ∀ i < a.count, ∀ j < b.count, List.Disjoint (Memory.bytesAt (a.address i) a.element.size)
    (Memory.bytesAt (b.address j) b.element.size)

theorem Buffer.toNat_of_mem_bytesAt {b : Buffer}
    (hfits : b.start.toNat + b.element.size * b.count ≤ 2 ^ 64) {i : Nat} (hi : i < b.count)
    {byte : UInt64} (h : byte ∈ Memory.bytesAt (b.address i) b.element.size) :
    b.start.toNat ≤ byte.toNat ∧ byte.toNat < b.start.toNat + b.element.size * b.count := by
  obtain ⟨k, hk, rfl⟩ := Memory.mem_bytesAt.mp h
  have hrow : b.element.size * (i + 1) ≤ b.element.size * b.count :=
    Nat.mul_le_mul_left b.element.size hi
  rw [Nat.mul_succ] at hrow
  have hbyte : (b.address i + UInt64.ofNat k).toNat = b.start.toNat + b.element.size * i + k := by
    rw [address, UInt64.toNat_add, UInt64.toNat_add, UInt64.toNat_ofNat', UInt64.toNat_ofNat']
    omega
  omega

/-- A buffer lies apart from one that ends where it starts or before. -/
theorem Buffer.apart_of_le {a b : Buffer}
    (hfits : a.start.toNat + a.element.size * a.count ≤ 2 ^ 64)
    (hle : b.start.toNat + b.element.size * b.count ≤ a.start.toNat) : a.Apart b := by
  intro i hi j hj byte hbyte hshared
  have hstart : a.start.toNat < 2 ^ 64 := UInt64.toNat_lt a.start
  have hbehind := (toNat_of_mem_bytesAt hfits hi hbyte).1
  have hfront := (toNat_of_mem_bytesAt (by omega) hj hshared).2
  omega

/-- The operands that a caller can have: inputs that read slices, and an output over a slice of a
buffer that nothing else reaches. -/
structure Borrowed (slices : List Slice) (inputs : List View) (target : Slice) (output : View) :
    Prop where
  reads : List.Forall₂ View.Reads slices inputs
  covers : output.Covers target
  bytes : target.buffer.element.size * target.buffer.count < 2 ^ 63
  apart : ∀ slice ∈ slices, target.buffer.Apart slice.buffer

theorem Binding.mem_inputBytes {b : Binding} {index : Nat} {byte : UInt64}
    (h : byte ∈ b.inputBytes index) :
    ∃ (k : Nat) (t : ScalarType) (address : UInt64), b.kernel.signature.inputs[k]? = some t ∧
      (b.inputAddresses index)[k]? = some address ∧ byte ∈ Memory.bytesAt address t.size := by
  obtain ⟨bytes, hbytes, hmem⟩ := List.mem_flatten.mp h
  obtain ⟨k, hk⟩ := List.mem_iff_getElem?.mp hbytes
  obtain ⟨t, address, ht, haddress, rfl⟩ := List.getElem?_zipWith_eq_some.mp hk
  exact ⟨k, t, address, ht, haddress, hmem⟩

/-- On operands that a caller can have, the elements of a call are separate. -/
theorem Binding.KeepsTo.separate {b : Binding} {n : Nat} {slices : List Slice}
    {inputs : List View} {target : Slice} {output : View}
    (h : b.KeepsTo n slices inputs target) (hborrowed : Borrowed slices inputs target output) :
    b.Separate n where
  outputs := h.apart
  inputs i hi j hj := by
    intro byte hbyte hread
    obtain ⟨k, t, address, ht, haddress, hmem⟩ := Binding.mem_inputBytes hread
    have hcount : k < slices.length := by
      have hlt := (List.getElem?_eq_some_iff.mp haddress).1
      rwa [Binding.inputAddresses, List.length_map, h.count] at hlt
    have hslice := List.getElem?_eq_getElem hcount
    have hview := List.getElem?_eq_getElem (hborrowed.reads.length_eq ▸ hcount)
    obtain ⟨hat, hinside, htype⟩ := h.read j hj k _ _ hslice hview
    obtain rfl := Option.some.inj (haddress.symm.trans hat)
    obtain rfl := Option.some.inj (ht.symm.trans htype)
    rw [Binding.outputBytes, Binding.outputSize, (h.written i hi).1, h.outputType] at hbyte
    exact hborrowed.apart _ (List.getElem_mem hcount) _ (h.written i hi).2 _ hinside hbyte hmem

namespace Family

section

variable {arity : Nat} {signatures others : List Signature}

theorem fits_perm (h : signatures.Perm others) :
    (∀ v, ¬ Misfit arity signatures v) ↔ ∀ v, ¬ Misfit arity others v := by
  rw [fits_iff, fits_iff, (h.map Signature.inputs).nodup_iff]
  simp only [h.mem_iff]

end

/-- There is a family exactly if the kernels fit in with one another. -/
theorem build?_eq_ok_iff {variants : List Kernel} {f : Family}
    (harity : ∀ kernel ∈ variants, kernel.arity = kernel.signature.arity) :
    build? variants = .ok f ↔ f.variants = variants ∧ variants ≠ [] ∧ f.Built := by
  constructor
  · intro hbuilt
    obtain ⟨hf, hvariants⟩ := built_of_build? hbuilt
    refine ⟨hvariants, ?_, hf⟩
    rintro rfl
    cases hbuilt
  · rintro ⟨rfl, hne, hf⟩
    obtain ⟨first, rest, hvariants⟩ := List.exists_cons_of_ne_nil hne
    obtain ⟨arity, variants⟩ := f
    obtain rfl : variants = first :: rest := hvariants
    have hfirst : first.arity = arity :=
      (harity first List.mem_cons_self).trans (hf.arity_eq List.mem_cons_self)
    subst hfirst
    refine build?_cons_eq_ok hf.arity_ne_zero ?_
    exact (verdict first.arity (first :: rest)).sound_iff.mpr hf.fits

section

variable {f : Family} {others : List Kernel}

theorem Built.perm (h : f.Built) (hperm : f.variants.Perm others) : Built ⟨f.arity, others⟩ where
  arity_ne_zero := h.arity_ne_zero
  fits := (fits_perm (hperm.map Kernel.signature)).mp h.fits

/-- With its variants in another order a family comes to the same request on any operands. -/
theorem request?_perm (h : f.Built) (hperm : f.variants.Perm others) (inputs : List View)
    (output : View) : f.request? inputs output = request? ⟨f.arity, others⟩ inputs output := by
  by_cases hcount : inputs.length = f.arity
  · by_cases htypes : types inputs output ∈ f.signatures
    · obtain ⟨kernel, hkernel, hsignature⟩ := List.mem_map.mp htypes
      obtain ⟨v, hv⟩ := List.mem_iff_getElem?.mp hkernel
      obtain ⟨u, hu⟩ := List.mem_iff_getElem?.mp (hperm.mem_iff.mp hkernel)
      obtain ⟨operands, hoperands, hrequest⟩ := h.request?_eq hv hsignature
      obtain ⟨operands', hoperands', hrequest'⟩ := (h.perm hperm).request?_eq hu hsignature
      obtain rfl := Except.ok.inj (hoperands.symm.trans hoperands')
      rw [hrequest, hrequest']
    · have htypes' : types inputs output ∉ signatures ⟨f.arity, others⟩ := fun hmem =>
        htypes ((hperm.map Kernel.signature).mem_iff.mpr hmem)
      have hothers : request? ⟨f.arity, others⟩ inputs output = .error _ :=
        request?_of_types hcount htypes'
      rw [request?_of_types hcount htypes, hothers]
  · have hothers : request? ⟨f.arity, others⟩ inputs output = .error _ := request?_of_count hcount
    rw [request?_of_count hcount, hothers]

/-- A reordering of the variants of a family makes a family. -/
theorem build?_perm {variants : List Kernel}
    (harity : ∀ kernel ∈ variants, kernel.arity = kernel.signature.arity)
    (hperm : variants.Perm others) (h : build? variants = .ok f) :
    build? others = .ok ⟨f.arity, others⟩ := by
  obtain ⟨rfl, hne, hf⟩ := (build?_eq_ok_iff harity).mp h
  have harity' : ∀ kernel ∈ others, kernel.arity = kernel.signature.arity := by
    intro kernel hkernel
    exact harity kernel (hperm.mem_iff.mpr hkernel)
  refine (build?_eq_ok_iff harity').mpr ⟨rfl, ?_, hf.perm hperm⟩
  rintro rfl
  exact hne hperm.eq_nil

end

/-- A call of a family by launching threads: there is one, and in whatever order turns have been
taken, only so many can be and the call can be completed. -/
structure Ends (f : Family) (e : Executor) (creates : Nat → Bool) (memory : Memory)
    (inputs : List View) (output : View) : Prop where
  exists_call : ∃ turns outcome c, f.call memory
    (e.scheduled (e.spawning creates output.length) turns memory) inputs output = some (outcome, c)
  completed : ∀ request binding, f.request? inputs output = .ok request →
    Binding.ofOperands? request.kernel request.operands = .ok binding → 0 < request.elements →
      ∃ bound, ∀ turns l,
        (e.launching creates memory request).run (e.job request binding) turns = some l →
          turns.length ≤ bound ∧ ∃ more outcome c, f.call memory
            (e.scheduled (e.spawning creates output.length) (turns ++ more) memory) inputs output =
              some (outcome, c)

section

variable {f g : Family} {e : Executor} {creates : Nat → Bool} {memory : Memory}
  {inputs : List View} {output : View}

/-- A request of a family comes with a binding, unless a kernel does not have the arity of its
signature. -/
theorem exists_binding_of_request?
    (harity : ∀ kernel ∈ f.variants, kernel.arity = kernel.signature.arity) {request : Request}
    (h : f.request? inputs output = .ok request) :
    ∃ binding, Binding.ofOperands? request.kernel request.operands = .ok binding := by
  have haccepted := accepted_of_request? h
  exact Binding.exists_ofOperands?
    (haccepted.length_inputs.trans (harity _ haccepted.kernel).symm)

theorem ends (harity : ∀ kernel ∈ f.variants, kernel.arity = kernel.signature.arity)
    (e : Executor) (creates : Nat → Bool) (memory : Memory) (inputs : List View) (output : View) :
    f.Ends e creates memory inputs output := by
  have hcompleted : ∀ request binding, f.request? inputs output = .ok request →
      Binding.ofOperands? request.kernel request.operands = .ok binding → 0 < request.elements →
        ∃ bound, ∀ turns l,
          (e.launching creates memory request).run (e.job request binding) turns = some l →
            turns.length ≤ bound ∧ ∃ more outcome c, f.call memory
              (e.scheduled (e.spawning creates output.length) (turns ++ more) memory) inputs
                output = some (outcome, c) := by
    intro request binding hrequest hbinding helements
    let team := Team.created creates (e.partition request.elements).workers
    obtain ⟨bound, hends⟩ := Executor.scheduled_ends memory team hbinding helements
    refine ⟨bound, fun turns l hrun => ?_⟩
    rw [← (accepted_of_request? hrequest).elements]
    simp only [call_of_request? hrequest]
    exact hends turns l hrun
  refine ⟨?_, hcompleted⟩
  cases hrequest : f.request? inputs output with
  | error reason => exact ⟨[], _, _, rejects_of_request? hrequest memory _⟩
  | ok request =>
      obtain ⟨binding, hbinding⟩ := exists_binding_of_request? harity hrequest
      rcases Nat.eq_zero_or_pos request.elements with hzero | hpos
      · exact ⟨[], _, _, (call_of_request? hrequest).trans
          (Executor.scheduled_of_empty hbinding hzero)⟩
      · obtain ⟨bound, hends⟩ := hcompleted request binding hrequest hbinding hpos
        obtain ⟨-, more, hcall⟩ := hends [] _ rfl
        exact ⟨[] ++ more, hcall⟩

/-- Two calls on the same operands by the same launch agree: both fail for the same reason, or both
return, and they leave the same memory. -/
def Agree (call call' : Option (Outcome × Course)) : Prop :=
  ∀ outcome outcome' c c', call = some (outcome, c) → call' = some (outcome', c') →
    ((∃ cause, outcome = .failed cause ∧ outcome' = .failed cause) ∨
      ∃ report report', outcome = .returned report ∧ outcome' = .returned report') ∧
    c'.state.memory = c.state.memory

theorem agree_of_request?
    (harity : ∀ kernel ∈ f.variants, kernel.arity = kernel.signature.arity)
    (hrequest : f.request? inputs output = g.request? inputs output) {slices : List Slice}
    {target : Slice} (hborrowed : Borrowed slices inputs target output) (turns turns' : List Turn) :
    Agree
      (f.call memory (e.scheduled (e.spawning creates output.length) turns memory) inputs output)
      (g.call memory (e.scheduled (e.spawning creates output.length) turns' memory) inputs
        output) := by
  intro outcome outcome' c c' hcall hcall'
  cases hf : f.request? inputs output with
  | error reason =>
      rw [rejects_of_request? hf] at hcall
      rw [rejects_of_request? (hrequest.symm.trans hf)] at hcall'
      cases hcall
      cases hcall'
      exact ⟨.inl ⟨_, rfl, rfl⟩, rfl⟩
  | ok request =>
      obtain ⟨binding, hbinding⟩ := exists_binding_of_request? harity hf
      have haccepted := accepted_of_request? hf
      have hkeeps := haccepted.keepsTo hbinding hborrowed.reads hborrowed.covers hborrowed.bytes
      have hresults : ∀ index < request.elements, request.unwinding index = none :=
        fun index _ => unwinding_of_request? hf index
      have hspawning : e.spawning creates output.length =
          (Team.created creates (e.partition request.elements).workers).plan := by
        rw [← haccepted.elements]
        rfl
      rw [call_of_request? hf, hspawning] at hcall
      rw [call_of_request? (hrequest.symm.trans hf), hspawning] at hcall'
      have hagree := Executor.outcomes_agree hbinding hresults hcall hcall'
      rcases hagree with ⟨report, report', rfl, rfl⟩ | ⟨cause, rfl, rfl⟩
      · refine ⟨.inr ⟨report, report', rfl, rfl⟩, ?_⟩
        have hseparate := hkeeps.separate hborrowed
        rw [Executor.memory_eq_of_returned hbinding hseparate hcall,
          Executor.memory_eq_of_returned hbinding hseparate hcall']
      · refine ⟨.inl ⟨cause, rfl, rfl⟩, ?_⟩
        rw [(Executor.untouched_of_failed hcall).memory, (Executor.untouched_of_failed hcall').memory]

end

/-- A list of kernels makes a family exactly if any reordering of it does. Calls of the two families
make the same request of whatever executes it, and if threads execute it the calls end and agree, in
whatever orders their turns are taken. -/
theorem order_of_variants_immaterial (variants others : List Kernel)
    (hperm : variants.Perm others)
    (harity : ∀ kernel ∈ variants, kernel.arity = kernel.signature.arity) :
    ((∃ f, build? variants = .ok f) ↔ ∃ g, build? others = .ok g) ∧
    ∀ f g, build? variants = .ok f → build? others = .ok g →
      (∀ memory execute inputs output,
        f.call memory execute inputs output = g.call memory execute inputs output) ∧
      ∀ slices inputs target output, Borrowed slices inputs target output →
        ∀ (e : Executor) creates memory,
          f.Ends e creates memory inputs output ∧ g.Ends e creates memory inputs output ∧
          ∀ turns turns', Agree
            (f.call memory (e.scheduled (e.spawning creates output.length) turns memory) inputs
              output)
            (g.call memory (e.scheduled (e.spawning creates output.length) turns' memory) inputs
              output) := by
  have harity' : ∀ kernel ∈ others, kernel.arity = kernel.signature.arity := by
    intro kernel hkernel
    exact harity kernel (hperm.mem_iff.mpr hkernel)
  refine ⟨⟨?_, ?_⟩, ?_⟩
  · rintro ⟨f, hf⟩
    exact ⟨_, build?_perm harity hperm hf⟩
  · rintro ⟨g, hg⟩
    exact ⟨_, build?_perm harity' hperm.symm hg⟩
  · intro f g hf hg
    obtain rfl := Except.ok.inj (hg.symm.trans (build?_perm harity hperm hf))
    obtain ⟨rfl, -, hbuilt⟩ := (build?_eq_ok_iff harity).mp hf
    have hrequest (inputs : List View) (output : View) :
        f.request? inputs output = request? ⟨f.arity, others⟩ inputs output :=
      request?_perm hbuilt hperm inputs output
    refine ⟨fun memory execute inputs output => ?_, ?_⟩
    · rw [call, call, hrequest]
    · intro slices inputs target output hborrowed e creates memory
      exact ⟨ends harity e creates memory inputs output,
        ends harity' e creates memory inputs output,
        fun turns turns' => agree_of_request? harity (hrequest inputs output) hborrowed turns turns'⟩

/-- Three words of two bytes are negated by the second variant of one family and by the first of
another. -/
theorem order_of_variants_immaterial_of_two :
    let inputs : List View := [.whole ⟨.int16, 0, 3⟩]
    let output : View := .whole ⟨.int16, 6, 3⟩
    let memory : Memory := ⟨⟨#[1, 0, 2, 0, 3, 0, 0, 0, 0, 0, 0, 0]⟩⟩
    ∃ f g turns turns' outcome outcome' c c',
      build? [.ofFormula .neg .int8, .ofFormula .neg .int16] = .ok f ∧
      build? [.ofFormula .neg .int16, .ofFormula .neg .int8] = .ok g ∧
      f.resolve? [.int16] .int16 = some 1 ∧ g.resolve? [.int16] .int16 = some 0 ∧
      f.call memory (Executor.twoWorkers.scheduled
        (Executor.twoWorkers.spawning (fun _ => true) 3) turns memory) inputs output =
          some (outcome, c) ∧
      g.call memory (Executor.twoWorkers.scheduled
        (Executor.twoWorkers.spawning (fun _ => true) 3) turns' memory) inputs output =
          some (outcome', c') ∧
      c.state.memory = ⟨⟨#[1, 0, 2, 0, 3, 0, 255, 255, 254, 255, 253, 255]⟩⟩ ∧
      c'.state.memory = c.state.memory := by
  intro inputs output memory
  have harity : ∀ kernel ∈ [Kernel.ofFormula .neg .int8, .ofFormula .neg .int16],
      kernel.arity = kernel.signature.arity := by
    intro kernel hkernel
    rcases List.mem_pair.mp hkernel with rfl | rfl <;> rfl
  have hborrowed : Borrowed [⟨⟨.int16, 0, 3⟩, 1⟩] inputs ⟨⟨.int16, 6, 3⟩, 1⟩ output := {
    reads := .cons (.covers (.whole _)) .nil
    covers := .whole _
    bytes := by decide
    apart := by
      intro slice hslice
      rw [List.mem_singleton.mp hslice]
      exact Buffer.apart_of_le (by decide) (by decide) }
  obtain ⟨hbuilds, hagree⟩ := order_of_variants_immaterial
    [.ofFormula .neg .int8, .ofFormula .neg .int16] _ (.swap _ _ []) harity
  let f : Family := ⟨1, [.ofFormula .neg .int8, .ofFormula .neg .int16]⟩
  have hf : build? [.ofFormula .neg .int8, .ofFormula .neg .int16] = .ok f := rfl
  obtain ⟨g, hg⟩ := hbuilds.mp ⟨f, hf⟩
  obtain ⟨-, hgends, hcalls⟩ := (hagree f g hf hg).2 _ inputs _ output hborrowed
    Executor.twoWorkers (fun _ => true) memory
  let spawning := Executor.twoWorkers.spawning (fun _ => true) 3
  have hany : (f.call memory (Executor.twoWorkers.scheduled spawning Executor.takingTurns memory)
      inputs output).any fun (_, c) =>
        c.state.memory.bytes = ⟨#[1, 0, 2, 0, 3, 0, 255, 255, 254, 255, 253, 255]⟩ := by
    decide +kernel
  obtain ⟨⟨outcome, c⟩, hcall, hlast⟩ := (Option.any_eq_true _ _).mp hany
  have hbytes : c.state.memory = ⟨⟨#[1, 0, 2, 0, 3, 0, 255, 255, 254, 255, 253, 255]⟩⟩ :=
    congrArg Memory.mk (of_decide_eq_true hlast)
  obtain ⟨turns', outcome', c', hcall'⟩ := hgends.exists_call
  refine ⟨f, g, Executor.takingTurns, turns', outcome, outcome', c, c', hf, hg, rfl, ?_, hcall,
    hcall', hbytes, (hcalls _ turns' outcome outcome' c c' hcall hcall').2⟩
  cases hg
  rfl

end Family

end Elementwise
