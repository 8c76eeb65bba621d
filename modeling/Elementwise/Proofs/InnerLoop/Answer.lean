import Elementwise.Proofs.Executor.Refusal
import Elementwise.Proofs.Executor.Threads
import Elementwise.Proofs.InnerLoop.Checks

/-!
The answers of the entry for foreign callers. The status tells null pointers from arguments that are
malformed in another way, and both from a call that could be made; unless it says that all is well
nothing has happened.
-/

namespace Elementwise

namespace InnerLoop

/-- What a call of the entry is on its way to: a call of an executor, unless a check fails. -/
def prepare (host : Host) (arguments : Arguments) : Except Status (Executor × Request) :=
  match check arguments with
  | .error status => .error status
  | .ok checked =>
      match Executor.ofSettings? (settings arguments.threads) host with
      | .error cause => .error (.ofFailure cause)
      | .ok executor =>
          match Operands.ofPointers? checked.bases checked.strides with
          | .error reason => .error (.ofFailure reason)
          | .ok operands =>
              .ok (executor, { kernel := checked.kernel, operands, elements := checked.elements })

/-- A call of the entry in which the launcher and the workers take the given turns. -/
def scheduled (host : Host) (turns : List Turn) (memory : Memory) (arguments : Arguments) :
    Option Result :=
  match prepare host arguments with
  | .error status => some ⟨.error status, .idle memory⟩
  | .ok (executor, request) =>
      (executor.scheduled
          (executor.launcher.plan executor.host (executor.partition request.elements).workers) turns
          memory request).map fun (outcome, c) => ⟨.ok outcome, { state := c.state }⟩

/-- A call that the entry makes comes to an end and to an answer, in whatever order its turns are
taken. -/
def Ends (host : Host) (memory : Memory) (a : Arguments) (executor : Executor) (request : Request)
    (binding : Binding) : Prop :=
  ∃ bound, ∀ turns l, Launching.run (executor.job request binding) turns
      { todo := executor.launcher.plan executor.host (executor.partition request.elements).workers,
        course := executor.opening memory (executor.partition request.elements) } = some l →
    turns.length ≤ bound ∧ ∃ more result, scheduled host (turns ++ more) memory a = some result

/-- What the status says about the arguments and about what has happened. -/
structure Answered (memory : Memory) (a : Arguments) (status : Status) (s : JobState) : Prop where
  null_iff : status.number = -1 ↔ a.HasNull
  malformed_iff : ¬ a.HasNull → (status.number = -2 ↔ a.Malformed)
  wellFormed : ¬ a.HasNull → ¬ a.Malformed → status.number = 0 ∨ status.number = -3
  untouched : status.number ≠ 0 → s.calls = #[] ∧ s.memory = memory
  sequential : status.number = 0 → ∀ binding n, a.Describes binding n → binding.Separate n →
    s.memory = binding.invokeAll memory (List.range n)

variable {host : Host} {memory : Memory} {a : Arguments} {s : JobState}

theorem call_eq (host : Host) (memory : Memory) (a : Arguments) :
    call host memory a =
      match prepare host a with
      | .error status => ⟨.error status, .idle memory⟩
      | .ok (executor, request) =>
          ⟨.ok (executor.run memory request).outcome, (executor.run memory request).session⟩ := by
  unfold call prepare
  cases check a with
  | error status => rfl
  | ok checked =>
      cases hexecutor : Executor.ofSettings? (settings a.threads) host with
      | error cause => rfl
      | ok executor =>
          cases hoperands : Operands.ofPointers? checked.bases checked.strides with
          | error reason => simp only [hoperands]
          | ok operands => simp only [hoperands]

theorem Answered.null (h : a.HasNull) :
    Answered memory a .nullPointer (Session.idle memory).state where
  null_iff := iff_of_true rfl h
  malformed_iff hnull := absurd h hnull
  wellFormed hnull := absurd h hnull
  untouched _ := ⟨rfl, rfl⟩
  sequential hzero := by cases hzero

theorem Answered.malformed (hnull : ¬ a.HasNull) (h : a.Malformed) :
    Answered memory a .badConfiguration (Session.idle memory).state where
  null_iff := iff_of_false (by decide) hnull
  malformed_iff _ := iff_of_true rfl h
  wellFormed _ hmalformed := absurd h hmalformed
  untouched _ := ⟨rfl, rfl⟩
  sequential hzero := by cases hzero

theorem Answered.returned (hnull : ¬ a.HasNull) (hmalformed : ¬ a.Malformed) {binding : Binding}
    {n : Nat} (hdescribes : a.Describes binding n)
    (hmemory : binding.Separate n → s.memory = binding.invokeAll memory (List.range n)) :
    Answered memory a .ok s where
  null_iff := iff_of_false (by decide) hnull
  malformed_iff _ := iff_of_false (by decide) hmalformed
  wellFormed _ _ := .inl rfl
  untouched hne := absurd rfl hne
  sequential _ binding' n' hdescribes' hseparate := by
    obtain ⟨rfl, rfl⟩ := hdescribes.unique hdescribes'
    exact hmemory hseparate

theorem Answered.refused (hnull : ¬ a.HasNull) (hmalformed : ¬ a.Malformed)
    (huntouched : s.calls = #[] ∧ s.memory = memory) : Answered memory a .spawnFailed s where
  null_iff := iff_of_false (by decide) hnull
  malformed_iff _ := iff_of_false (by decide) hmalformed
  wellFormed _ _ := .inr rfl
  untouched _ := huntouched
  sequential hzero := by cases hzero

/-- The entry's answers to arguments: of the call that it makes by itself, and however the threads
of a call take turns. -/
structure Classified (host : Host) (memory : Memory) (a : Arguments) : Prop where
  checks : ¬ a.HasNull → ¬ a.Malformed → ∃ checked executor operands binding,
    check a = .ok checked ∧ Executor.ofSettings? (settings a.threads) host = .ok executor ∧
      Operands.ofPointers? checked.bases checked.strides = .ok operands ∧
      Binding.ofOperands? checked.kernel operands = .ok binding ∧
      a.Describes binding checked.elements
  answer : ∃ status, (call host memory a).status? = some status ∧
    Answered memory a status (call host memory a).session.state
  answers : ∀ turns result, scheduled host turns memory a = some result →
    ∃ status, result.status? = some status ∧ Answered memory a status result.session.state
  ends : ∀ executor request binding, prepare host a = .ok (executor, request) →
    Binding.ofOperands? request.kernel request.operands = .ok binding → 0 < request.elements →
      Ends host memory a executor request binding

theorem Classified.of_error {status : Status} (hprepare : prepare host a = .error status)
    (hrejected : a.HasNull ∨ a.Malformed)
    (hanswered : Answered memory a status (Session.idle memory).state) :
    Classified host memory a where
  checks hnull hmalformed := absurd hrejected (not_or.mpr ⟨hnull, hmalformed⟩)
  answer := by
    rw [call_eq, hprepare]
    exact ⟨status, rfl, hanswered⟩
  answers turns result hresult := by
    rw [scheduled, hprepare] at hresult
    cases hresult
    exact ⟨status, rfl, hanswered⟩
  ends executor request binding hok := by
    rw [hprepare] at hok
    cases hok

/-- A call that the entry makes: on threads, with a kernel that always gives a result, of what the
arguments describe. -/
structure Prepared (a : Arguments) (executor : Executor) (request : Request) (binding : Binding) :
    Prop where
  launcher : executor.launcher = .ofSettings (settings a.threads)
  bound : Binding.ofOperands? request.kernel request.operands = .ok binding
  describes : a.Describes binding request.elements
  results : ∀ index, request.unwinding index = none
  hooks : request.hooks = []

theorem exists_prepared (hthreads : host.threadless = none) (hsized : a.Sized)
    (hnull : ¬ a.HasNull) (hmalformed : ¬ a.Malformed) :
    ∃ executor request binding, prepare host a = .ok (executor, request) ∧
      Prepared a executor request binding := by
  obtain ⟨checked, executor, operands, binding, hcheck, hexecutor, hoperands, hbinding,
    hdescribes⟩ := checks_pass hthreads hsized hnull hmalformed
  refine ⟨executor, { kernel := checked.kernel, operands, elements := checked.elements }, binding,
    ?_, ?_, hbinding, hdescribes, fun _ => rfl, rfl⟩
  · simp only [prepare, hcheck, hexecutor, hoperands]
  · rw [ofSettings?_eq_ok hthreads] at hexecutor
    cases hexecutor
    rfl

theorem threadName_settings (threads : Nat) : (settings threads).threadName = "parvec-worker" := by
  unfold settings
  split <;> rfl

namespace Prepared

variable {executor : Executor} {request : Request} {binding : Binding} {turns : List Turn}
  {outcome : Outcome} {c : Course}

theorem namingFault? (h : Prepared a executor request binding) (workers : Nat) :
    executor.launcher.namingFault? workers = none := by
  have hname : ThreadBuilder.nulFault? (threadName "parvec-worker" 0) = none :=
    (ThreadBuilder.nulFault?_threadName "parvec-worker" 0).mpr (by decide)
  simp only [h.launcher, Launcher.ofSettings, Launcher.namingFault?, threadName_settings, hname]
  split <;> rfl

theorem exists_plan_eq (h : Prepared a executor request binding) :
    ∃ team : Team (executor.partition request.elements).workers, executor.launcher.plan
      executor.host (executor.partition request.elements).workers = team.plan :=
  ⟨_, Launcher.plan_eq h.launcher (h.namingFault? _) executor.host⟩

/-- Whatever threads can be created and in whatever order the turns are taken, a call that the entry
makes returns with the work done or fails without a trace. -/
theorem answered (h : Prepared a executor request binding) (hnull : ¬ a.HasNull)
    (hmalformed : ¬ a.Malformed)
    (hscheduled : executor.scheduled
      (executor.launcher.plan executor.host (executor.partition request.elements).workers) turns
      memory request = some (outcome, c)) (session : Session) :
    ∃ status, (⟨.ok outcome, session⟩ : Result).status? = some status ∧
      Answered memory a status c.state := by
  obtain ⟨team, hplan⟩ := h.exists_plan_eq
  rw [hplan] at hscheduled
  rcases Executor.returned_or_refused h.bound (fun index _ => h.results index) hscheduled with
    ⟨report, rfl⟩ | ⟨f, rfl⟩
  · exact ⟨.ok, rfl, .returned hnull hmalformed h.describes fun hseparate =>
      Executor.memory_eq_of_returned h.bound hseparate hscheduled⟩
  · have huntouched := Executor.untouched_of_failed hscheduled
    exact ⟨.spawnFailed, rfl, .refused hnull hmalformed ⟨huntouched.calls, huntouched.memory⟩⟩

theorem ends (h : Prepared a executor request binding)
    (hprepare : prepare host a = .ok (executor, request)) (helements : 0 < request.elements) :
    Ends host memory a executor request binding := by
  obtain ⟨team, hplan⟩ := h.exists_plan_eq
  obtain ⟨bound, hends⟩ := Executor.scheduled_ends memory team h.bound helements
  refine ⟨bound, fun turns l hrun => ?_⟩
  rw [hplan] at hrun
  obtain ⟨hle, more, outcome, c, hscheduled⟩ := hends turns l hrun
  refine ⟨hle, more, ⟨.ok outcome, { state := c.state }⟩, ?_⟩
  simp only [scheduled, hprepare, hplan, hscheduled, Option.map_some]

end Prepared

theorem Prepared.classified {executor : Executor} {request : Request} {binding : Binding}
    (h : Prepared a executor request binding)
    (hprepare : prepare host a = .ok (executor, request)) (hthreads : host.threadless = none)
    (hsized : a.Sized) (hnull : ¬ a.HasNull) (hmalformed : ¬ a.Malformed) :
    Classified host memory a where
  checks := checks_pass hthreads hsized
  answer := by
    obtain ⟨turns, c, hscheduled, hstate⟩ := Executor.exists_scheduled_of_run executor memory
      request h.launcher h.hooks
    rw [call_eq, hprepare, ← hstate]
    exact h.answered hnull hmalformed hscheduled _
  answers turns result hresult := by
    rw [scheduled, hprepare] at hresult
    obtain ⟨⟨outcome, c⟩, hscheduled, rfl⟩ := Option.map_eq_some_iff.mp hresult
    exact h.answered hnull hmalformed hscheduled _
  ends executor' request' binding' hprepare' hbinding' helements := by
    obtain ⟨rfl, rfl⟩ := Prod.mk.inj (Except.ok.inj (hprepare.symm.trans hprepare'))
    obtain rfl := Except.ok.inj (h.bound.symm.trans hbinding')
    exact h.ends hprepare helements

/-- On a host with threads the status of the entry classifies its arguments. -/
theorem arguments_classified (host : Host) (memory : Memory) (a : Arguments)
    (hthreads : host.threadless = none) (hsized : a.Sized) : Classified host memory a := by
  by_cases hnull : a.HasNull
  · have hprepare : prepare host a = .error .nullPointer := by
      simp only [prepare, check_of_null hnull]
    exact .of_error hprepare (.inl hnull) (.null hnull)
  · by_cases hmalformed : a.Malformed
    · have hprepare : prepare host a = .error .badConfiguration := by
        simp only [prepare, check_of_malformed hsized hnull hmalformed]
      exact .of_error hprepare (.inr hmalformed) (.malformed hnull hmalformed)
    · obtain ⟨executor, request, binding, hprepare, hprepared⟩ :=
        exists_prepared hthreads hsized hnull hmalformed
      exact hprepared.classified hprepare hthreads hsized hnull hmalformed

/-- The arguments for the sum of two rows of three bytes and the caller's data word. -/
def Arguments.reversedSum : Arguments where
  function := some fun data _ inputs => (Kernel.ofFormula .add .int8).eval inputs + data
  pointers := some [2, 3, 4]
  dimension := some 3
  steps := some [-1, 0, 1]
  types := some [0, 0, 0]
  count := 3
  data := 100
  threads := 2

theorem arguments_classified_of_reversed_sum :
    (call (.ordinary 2) .reversedSum .reversedSum).status? = some .ok ∧
      (call (.ordinary 2) .reversedSum .reversedSum).session.state.memory =
        ⟨⟨#[1, 2, 3, 10, 113, 112, 111, 0]⟩⟩ := by
  have hsized : Arguments.reversedSum.Sized := by
    constructor <;> rintro _ ⟨⟩ <;> rfl
  let binding : Binding :=
    { kernel := { signature := ⟨[.int8, .int8], .int8⟩,
                  eval := fun inputs => (Kernel.ofFormula .add .int8).eval inputs + 100 },
      inputs := [⟨2, -1⟩, ⟨3, 0⟩],
      output := ⟨4, 1⟩,
      arity_pos := by decide,
      length_inputs := rfl }
  have hdescribes : Arguments.reversedSum.Describes binding 3 :=
    ⟨⟨_, _, rfl, rfl, rfl, rfl, rfl⟩, ⟨_, _, rfl, rfl, rfl⟩, ⟨3, rfl, by decide⟩⟩
  have hseparate : binding.Separate 3 := by decide +kernel
  have hbytes : (binding.invokeAll .reversedSum (List.range 3)).bytes =
      ⟨#[1, 2, 3, 10, 113, 112, 111, 0]⟩ := by
    decide +kernel
  have hok : (call (.ordinary 2) .reversedSum .reversedSum).status? = some .ok := by
    decide +kernel
  obtain ⟨status, hstatus, hanswered⟩ :=
    (arguments_classified (.ordinary 2) .reversedSum .reversedSum rfl hsized).answer
  obtain rfl := Option.some.inj (hstatus.symm.trans hok)
  refine ⟨hok, (hanswered.sequential rfl binding 3 hdescribes hseparate).trans ?_⟩
  exact congrArg Memory.mk hbytes

end InnerLoop

end Elementwise
