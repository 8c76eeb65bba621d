import Elementwise.Proofs.Executor.Call
import Elementwise.Proofs.Family.Request
import Elementwise.Proofs.Family.Validation

/-!
Calls of a family. Three checks decide what becomes of the operands, and what passes them also passes
those that are made behind them: a call that has come to its launch can only fail there.
-/

namespace Elementwise

namespace Executor

variable {e : Executor} {memory : Memory} {request : Request} {binding : Binding}
  {launch : Job → Partition → Course → Option (Except Payload LaunchRecord × Course)}

/-- The executor's own call of a request. -/
def play (e : Executor) (memory : Memory) (request : Request) : Option (Outcome × Course) :=
  let run := e.run memory request
  some (run.outcome, { state := run.session.state })

/-- The ways in which an executor makes calls: under any launch, or by itself. The kernel may unwind,
and other things may happen during its calls. -/
inductive Executes (e : Executor) (memory : Memory) : (Request → Option (Outcome × Course)) → Prop
    where
  | call (unwinding : Nat → Option Payload)
      (launch : Job → Partition → Course → Option (Except Payload LaunchRecord × Course)) :
      Executes e memory fun request => e.call memory { request with unwinding } launch
  | play (unwinding : Nat → Option Payload) (hooks : Hooks) :
      Executes e memory fun request => e.play memory { request with unwinding, hooks }

theorem play_of_empty
    (hbinding : Binding.ofOperands? request.kernel request.operands = .ok binding)
    (helements : request.elements = 0) :
    e.play memory request =
      some (.returned (.empty e.requestedWorkers), { state := (Session.idle memory).state }) := by
  rw [play, run_eq_call, call_of_empty hbinding helements]

/-- A call whose operands fit its kernel only fails for want of a thread. -/
theorem threadSpawn_of_call (request : Request)
    (hbinding : Binding.ofOperands? request.kernel request.operands = .ok binding)
    {cause : Failure} {c : Course} (h : e.call memory request launch = some (.failed cause, c)) :
    ∃ w, cause = .threadSpawn w (e.partition request.elements).workers := by
  rcases Nat.eq_zero_or_pos request.elements with hzero | hpos
  · rw [call_of_empty hbinding hzero] at h
    cases h
  · rw [call_of_pos hbinding hpos] at h
    obtain ⟨⟨ending, course⟩, -, hend⟩ := Option.map_eq_some_iff.mp h
    obtain ⟨-, w, -, hcause, -⟩ := conclude_eq_failed (Prod.mk.inj hend).1
    exact ⟨w, hcause⟩

theorem threadSpawn_of_play (request : Request)
    (hbinding : Binding.ofOperands? request.kernel request.operands = .ok binding)
    {cause : Failure} {c : Course} (h : e.play memory request = some (.failed cause, c)) :
    ∃ w, cause = .threadSpawn w (e.partition request.elements).workers := by
  rw [play, run_eq_call] at h
  exact threadSpawn_of_call request hbinding h

namespace Executes

variable {execute : Request → Option (Outcome × Course)}

theorem threadSpawn (h : e.Executes memory execute)
    (hbinding : Binding.ofOperands? request.kernel request.operands = .ok binding)
    {cause : Failure} {c : Course} (hfailed : execute request = some (.failed cause, c)) :
    ∃ w, cause = .threadSpawn w (e.partition request.elements).workers := by
  cases h with
  | call unwinding launch => exact threadSpawn_of_call { request with unwinding } hbinding hfailed
  | play unwinding hooks =>
      exact threadSpawn_of_play { request with unwinding, hooks } hbinding hfailed

theorem of_empty (h : e.Executes memory execute)
    (hbinding : Binding.ofOperands? request.kernel request.operands = .ok binding)
    (helements : request.elements = 0) :
    execute request =
      some (.returned (.empty e.requestedWorkers), { state := (Session.idle memory).state }) := by
  cases h with
  | call unwinding launch => exact call_of_empty hbinding helements
  | play unwinding hooks => exact play_of_empty hbinding helements

end Executes

end Executor

namespace Family

/-- The types of the operands of a call. -/
def types (inputs : List View) (output : View) : Signature :=
  ⟨inputs.map View.element, output.element⟩

/-- The input at a position is neither of length `n` nor a single element. -/
def Mismatched (n : Nat) (inputs : List View) (k : Nat) : Prop :=
  ∃ view, inputs[k]? = some view ∧ view.length ≠ n ∧ view.length ≠ 1

/-- A call of a family: what the operands come to is executed, unless they are rejected. -/
def call (f : Family) (memory : Memory) (execute : Request → Option (Outcome × Course))
    (inputs : List View) (output : View) : Option (Outcome × Course) :=
  match f.request? inputs output with
  | .error reason =>
      some (.failed (.rejected reason), { state := (Session.idle memory).state })
  | .ok request => execute request

/-- A call on these operands returns a rejection without having done anything. -/
def Rejects (f : Family) (inputs : List View) (output : View) (reason : Rejection) : Prop :=
  ∀ memory execute, f.call memory execute inputs output =
    some (.failed (.rejected reason), { state := (Session.idle memory).state })

section

variable {f : Family} {inputs : List View} {output : View} {memory : Memory}
  {execute : Request → Option (Outcome × Course)}

theorem rejects_of_request? {reason : Rejection} (h : f.request? inputs output = .error reason) :
    f.Rejects inputs output reason := by
  intro memory execute
  simp only [call, h]

theorem call_of_request? {request : Request} (h : f.request? inputs output = .ok request) :
    f.call memory execute inputs output = execute request := by
  simp only [call, h]

/-- The kernel of a request of a family always gives a result. -/
theorem unwinding_of_request? {request : Request} (h : f.request? inputs output = .ok request)
    (index : Nat) : request.unwinding index = none := by
  simp only [request?] at h
  split at h
  · cases h
  · split at h
    · cases h
    · split at h
      · cases h
      · cases h
      · split at h
        · cases h
        · cases h
          rfl

theorem mismatched_cons_succ {n k : Nat} {first : View} {rest : List View} :
    Mismatched n (first :: rest) (k + 1) ↔ Mismatched n rest k := Iff.rfl

theorem mismatched_cons_zero {n : Nat} {first : View} {rest : List View} :
    Mismatched n (first :: rest) 0 ↔ first.length ≠ n ∧ first.length ≠ 1 := by
  simp [Mismatched]

/-- The first input of a wrong length is the one that is reported. -/
theorem lengthFault?_eq_some {n k : Nat} (position : Nat)
    (hleast : IsLeast {k | Mismatched n inputs k} k) {view : View} (hview : inputs[k]? = some view) :
    lengthFault? n position inputs = some (.lengthMismatch (position + k) n view.length) := by
  induction inputs generalizing position k with
  | nil => cases hview
  | cons first rest ih =>
      cases k with
      | zero =>
          cases hview
          rw [lengthFault?, if_pos (mismatched_cons_zero.mp hleast.1)]
          rfl
      | succ k =>
          have hfirst : ¬ (first.length ≠ n ∧ first.length ≠ 1) := fun hmismatched =>
            Nat.not_succ_le_zero k (hleast.2 (mismatched_cons_zero.mpr hmismatched))
          have hrest : IsLeast {k | Mismatched n rest k} k :=
            ⟨hleast.1, fun j hj => Nat.le_of_succ_le_succ (hleast.2 (mismatched_cons_succ.mpr hj))⟩
          rw [lengthFault?, if_neg hfirst, ih (position + 1) hrest hview, Nat.succ_add_eq_add_succ]

theorem lengthFault?_eq_none {n : Nat} (position : Nat)
    (h : ∀ view ∈ inputs, view.length = n ∨ view.length = 1) :
    lengthFault? n position inputs = none := by
  induction inputs generalizing position with
  | nil => rfl
  | cons first rest ih =>
      have hfirst : ¬ (first.length ≠ n ∧ first.length ≠ 1) := by
        rw [not_and_or, not_not, not_not]
        exact h first List.mem_cons_self
      rw [lengthFault?, if_neg hfirst]
      exact ih (position + 1) fun view hview => h view (List.mem_cons_of_mem first hview)

theorem resolve?_eq_none (h : types inputs output ∉ f.signatures) :
    f.resolve? (inputs.map View.element) output.element = none := by
  rw [resolve?, List.findIdx?_eq_none_iff]
  intro signature hmem
  rw [decide_eq_false_iff_not]
  rintro ⟨hinputs, houtput⟩
  refine h ?_
  rw [types, ← hinputs, ← houtput]
  exact hmem

theorem request?_of_count (h : inputs.length ≠ f.arity) :
    f.request? inputs output = .error (.operandCount (f.arity + 1) (inputs.length + 1)) := by
  rw [request?, if_pos h]

theorem request?_of_types (hcount : inputs.length = f.arity)
    (h : types inputs output ∉ f.signatures) :
    f.request? inputs output =
      .error (.noMatchingSignature (inputs.map View.element) output.element) := by
  rw [request?, if_neg (fun hne => hne hcount)]
  simp only [resolve?_eq_none h]

theorem getElem?_signatures {v : Nat} {kernel : Kernel} (h : f.variants[v]? = some kernel) :
    f.signatures[v]? = some kernel.signature := by
  rw [signatures, List.getElem?_map, h]
  rfl

end

/-- Signatures fit in with one another if all of them have the arity and no two of them the same
inputs. -/
theorem fits_iff {arity : Nat} {signatures : List Signature} : (∀ v, ¬ Misfit arity signatures v) ↔
    (∀ signature ∈ signatures, signature.arity = arity) ∧
      (signatures.map Signature.inputs).Nodup := by
  constructor
  · intro hfits
    constructor
    · intro signature hmem
      obtain ⟨v, hv⟩ := List.mem_iff_getElem?.mp hmem
      by_contra hne
      exact hfits v ⟨signature, hv, .inl hne⟩
    · rw [List.Nodup, List.pairwise_iff_getElem]
      intro u v hu hv hlt hinputs
      rw [List.length_map] at hu hv
      rw [List.getElem_map, List.getElem_map] at hinputs
      exact hfits v ⟨_, List.getElem?_eq_getElem hv, .inr ⟨u, hlt, _, List.getElem?_eq_getElem hu,
        hinputs⟩⟩
  · rintro ⟨harities, hnodup⟩ v ⟨signature, hv, harity | ⟨u, hlt, earlier, hu, hinputs⟩⟩
    · exact harity (harities signature (List.mem_of_getElem? hv))
    · obtain ⟨hult, rfl⟩ := List.getElem?_eq_some_iff.mp hu
      obtain ⟨hvlt, rfl⟩ := List.getElem?_eq_some_iff.mp hv
      rw [List.Nodup, List.pairwise_iff_getElem] at hnodup
      refine hnodup u v (by rwa [List.length_map]) (by rwa [List.length_map]) hlt ?_
      rw [List.getElem_map, List.getElem_map]
      exact hinputs

/-- A family as it is built: its variants fit in with one another, and its number of inputs is one
and not zero. -/
structure Built (f : Family) : Prop where
  arity_ne_zero : f.arity ≠ 0
  fits : ∀ v, ¬ Misfit f.arity f.signatures v

theorem built_of_build? {variants : List Kernel} {f : Family} (h : build? variants = .ok f) :
    f.Built ∧ f.variants = variants := by
  obtain ⟨first, rest, rfl, rfl, hfits⟩ := exists_of_build? h
  refine ⟨⟨fun hzero => ?_, hfits⟩, rfl⟩
  rw [build?, if_pos hzero] at h
  cases h

namespace Built

variable {f : Family} {inputs : List View} {output : View} {v : Nat} {kernel : Kernel}

theorem arity_eq (h : f.Built) (hkernel : kernel ∈ f.variants) :
    kernel.signature.arity = f.arity :=
  (fits_iff.mp h.fits).1 _ (List.mem_map_of_mem hkernel)

theorem length_eq (h : f.Built) (hkernel : kernel ∈ f.variants)
    (htypes : kernel.signature = types inputs output) : inputs.length = f.arity := by
  rw [← h.arity_eq hkernel, htypes, Signature.arity, types, List.length_map]

theorem resolve?_eq (h : f.Built) (hv : f.variants[v]? = some kernel)
    (htypes : kernel.signature = types inputs output) :
    f.resolve? (inputs.map View.element) output.element = some v := by
  rw [resolve?_eq_some_iff h.fits]
  refine ⟨_, getElem?_signatures hv, ?_⟩
  rw [htypes]
  exact ⟨rfl, rfl⟩

theorem eq_of_types (h : f.Built) {u : Nat} {other : Kernel} (hv : f.variants[v]? = some kernel)
    (hu : f.variants[u]? = some other) (hsignatures : other.signature = kernel.signature) :
    u = v :=
  eq_of_inputs_eq h.fits (getElem?_signatures hu) (getElem?_signatures hv)
    (congrArg Signature.inputs hsignatures)

/-- Operands of the types of a variant are rejected for their lengths or become its request. -/
theorem request?_eq (h : f.Built) (hv : f.variants[v]? = some kernel)
    (htypes : kernel.signature = types inputs output) :
    ∃ operands, Operands.ofPointers? ((pointers output.length inputs output).map Pointer.base)
        ((pointers output.length inputs output).map Pointer.stride) = .ok operands ∧
      f.request? inputs output =
        match lengthFault? output.length 0 inputs with
        | some reason => .error reason
        | none => .ok { kernel, operands, elements := output.length } := by
  have hcount := h.length_eq (List.mem_of_getElem? hv) htypes
  have htwo : 2 ≤ ((pointers output.length inputs output).map Pointer.base).length := by
    have hpos := Nat.pos_of_ne_zero h.arity_ne_zero
    rw [← hcount] at hpos
    simp only [pointers, List.length_map, List.length_append, List.length_singleton]
    omega
  obtain ⟨operands, hoperands⟩ := Operands.exists_ofPointers?
    ((List.length_map _).trans (List.length_map _).symm) htwo
  refine ⟨operands, hoperands, ?_⟩
  rw [request?, if_neg (fun hne => hne hcount)]
  simp only [h.resolve?_eq hv htypes, hv, hoperands]
  cases lengthFault? output.length 0 inputs with
  | some reason => rfl
  | none => rfl

end Built

/-- A call on these operands is a call of the variant at a position, and no check stands in its way
any more. It covers as many indices as the output has elements. -/
structure Dispatches (f : Family) (inputs : List View) (output : View) (v : Nat)
    (request : Request) : Prop where
  variant : f.variants[v]? = some request.kernel
  signature : request.kernel.signature = types inputs output
  unique : ∀ u kernel, f.variants[u]? = some kernel →
    kernel.signature = types inputs output → u = v
  elements : request.elements = output.length
  inputPointers : request.operands.inputs = inputs.map (View.inputPointer · output.length)
  outputPointer : request.operands.output = output.outputPointer
  bound : ∃ binding, Binding.ofOperands? request.kernel request.operands = .ok binding
  executed : ∀ memory execute, f.call memory execute inputs output = execute request
  /-- However the call is made and whatever the kernel does, the only failure is for want of a
  thread. -/
  failed : ∀ (e : Executor) memory execute cause c, e.Executes memory execute →
    f.call memory execute inputs output = some (.failed cause, c) →
      ∃ w, cause = .threadSpawn w (e.partition output.length).workers
  /-- A call over no index always returns, and its report is empty. -/
  empty : output.length = 0 → ∀ (e : Executor) memory execute, e.Executes memory execute →
    f.call memory execute inputs output =
      some (.returned (.empty e.requestedWorkers), { state := (Session.idle memory).state })

theorem Built.dispatches {f : Family} (h : f.Built) {inputs : List View} {output : View} {v : Nat}
    {kernel : Kernel} (hv : f.variants[v]? = some kernel)
    (htypes : kernel.signature = types inputs output)
    (harity : kernel.arity = kernel.signature.arity)
    (hlengths : ∀ view ∈ inputs, view.length = output.length ∨ view.length = 1) :
    ∃ request, f.Dispatches inputs output v request := by
  obtain ⟨operands, -, hrequest⟩ := h.request?_eq hv htypes
  rw [lengthFault?_eq_none 0 hlengths] at hrequest
  have haccepted := accepted_of_request? hrequest
  obtain ⟨binding, hbinding⟩ := Binding.exists_ofOperands?
    (haccepted.length_inputs.trans harity.symm)
  refine ⟨_, {
    variant := hv
    signature := htypes
    unique := fun u other hu hother => h.eq_of_types hv hu (hother.trans htypes.symm)
    elements := rfl
    inputPointers := haccepted.inputs
    outputPointer := haccepted.output
    bound := ⟨binding, hbinding⟩
    executed := fun memory execute => call_of_request? hrequest
    failed := ?_
    empty := ?_ }⟩
  · intro e memory execute cause c hexecutes hfailed
    rw [call_of_request? hrequest] at hfailed
    exact hexecutes.threadSpawn hbinding hfailed
  · intro hzero e memory execute hexecutes
    rw [call_of_request? hrequest]
    exact hexecutes.of_empty hbinding hzero

/-- A call of a family on any operands: their number is checked first, then their types, then their
lengths, and the first fault is what the call returns. If there is none the one variant of their
types is called, and no other check rejects anything. -/
theorem call_decided_by_checks (variants : List Kernel) (f : Family) (inputs : List View)
    (output : View) (hbuilt : build? variants = .ok f)
    (harity : ∀ kernel ∈ variants, kernel.arity = kernel.signature.arity) :
    (inputs.length ≠ f.arity →
      f.Rejects inputs output (.operandCount (f.arity + 1) (inputs.length + 1))) ∧
    (inputs.length = f.arity → types inputs output ∉ f.signatures →
      f.Rejects inputs output
        (.noMatchingSignature (inputs.map View.element) output.element)) ∧
    (inputs.length = f.arity → types inputs output ∈ f.signatures →
      (∀ k view, IsLeast {k | Mismatched output.length inputs k} k → inputs[k]? = some view →
        f.Rejects inputs output (.lengthMismatch k output.length view.length)) ∧
      ((∀ k, ¬ Mismatched output.length inputs k) →
        ∃ v request, f.Dispatches inputs output v request)) := by
  obtain ⟨h, hvariants⟩ := built_of_build? hbuilt
  refine ⟨?_, ?_, ?_⟩
  · intro hcount
    exact rejects_of_request? (request?_of_count hcount)
  · intro hcount htypes
    exact rejects_of_request? (request?_of_types hcount htypes)
  · intro _ htypes
    obtain ⟨kernel, hkernel, hsignature⟩ := List.mem_map.mp htypes
    obtain ⟨v, hv⟩ := List.mem_iff_getElem?.mp hkernel
    constructor
    · intro k view hleast hview
      obtain ⟨operands, -, hrequest⟩ := h.request?_eq hv hsignature
      rw [lengthFault?_eq_some 0 hleast hview, Nat.zero_add] at hrequest
      exact rejects_of_request? hrequest
    · intro hlengths
      refine ⟨v, h.dispatches hv hsignature (harity kernel (hvariants ▸ hkernel)) ?_⟩
      intro view hview
      obtain ⟨k, hk⟩ := List.mem_iff_getElem?.mp hview
      by_contra hneither
      exact hlengths k ⟨view, hk, not_or.mp hneither⟩

/-- Sums of bytes or of words of two bytes. Operands of both types have no variant, the second of two
rows is too short, and a single word is added to three others by the second variant. -/
theorem call_decided_by_checks_of_two_sums :
    let words (count : Nat) : View := ⟨.int16, 0, 2, count⟩
    ∃ f, build? [.ofFormula .add .int8, .ofFormula .add .int16] = .ok f ∧
      f.Rejects [words 3] (words 3) (.operandCount 3 2) ∧
      f.Rejects [words 3, ⟨.int8, 6, 1, 3⟩] (words 3)
        (.noMatchingSignature [.int16, .int8] .int16) ∧
      f.Rejects [words 1, words 2] (words 3) (.lengthMismatch 1 3 2) ∧
      ∃ request, f.Dispatches [words 3, words 1] (words 3) 1 request := by
  intro words
  obtain ⟨f, hbuilt⟩ : ∃ f, build? [.ofFormula .add .int8, .ofFormula .add .int16] = .ok f :=
    ⟨_, rfl⟩
  obtain ⟨-, hvariants⟩ := built_of_build? hbuilt
  have harity : ∀ kernel ∈ [Kernel.ofFormula .add .int8, .ofFormula .add .int16],
      kernel.arity = kernel.signature.arity := by
    intro kernel hkernel
    rcases List.mem_pair.mp hkernel with rfl | rfl <;> rfl
  have htwo : f.arity = 2 := by
    cases hbuilt
    rfl
  have hsignatures : f.signatures = [⟨[.int8, .int8], .int8⟩, ⟨[.int16, .int16], .int16⟩] := by
    rw [signatures, hvariants]
    rfl
  have hdecided (inputs : List View) (output : View) :=
    call_decided_by_checks _ f inputs output hbuilt harity
  simp only [htwo, hsignatures] at hdecided
  refine ⟨f, hbuilt, ?_, ?_, ?_, ?_⟩
  · exact (hdecided [words 3] (words 3)).1 (by decide)
  · exact (hdecided [words 3, ⟨.int8, 6, 1, 3⟩] (words 3)).2.1 rfl (by decide)
  · refine ((hdecided [words 1, words 2] (words 3)).2.2 rfl (by decide)).1 1 (words 2) ⟨?_, ?_⟩ rfl
    · exact ⟨words 2, rfl, by decide, by decide⟩
    · rintro k ⟨view, hview, hmismatched⟩
      refine Nat.one_le_iff_ne_zero.mpr ?_
      rintro rfl
      cases hview
      exact hmismatched.2 rfl
  · obtain ⟨v, request, hdispatches⟩ :=
      ((hdecided [words 3, words 1] (words 3)).2.2 rfl (by decide)).2 (by
        rintro (_ | _ | k) ⟨view, hview, hmismatched⟩
        · cases hview
          exact hmismatched.1 rfl
        · cases hview
          exact hmismatched.2 rfl
        · cases hview)
    have hsecond : 1 = v :=
      hdispatches.unique 1 (.ofFormula .add .int16) (by rw [hvariants]; rfl) rfl
    exact ⟨request, hsecond ▸ hdispatches⟩

end Family

end Elementwise
