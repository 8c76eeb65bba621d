import Elementwise.Proofs.Job.Alone

/-!
A worker that runs alone behind an open gate leaves nothing in any deque, and takes what was there
in one order. In front of an abandoned gate it leaves everything as it was.
-/

namespace Elementwise

theorem Phase.peer?_of_not_running {phase : Phase} (h : phase.isRunning = false) :
    phase.peer? = none := by
  cases phase with
  | idle | finished | dead => rfl
  | _ => cases h

namespace JobState

variable {job : Job} {s s' : JobState} {w : Nat}

theorem fit_start_of_others (hsizes : s.deques.size = s.workers.size) (hw : w < s.workers.size)
    (hothers : ∀ v, v ≠ w → (s.phase v).isRunning = false) : (s.start w).Fit := by
  refine ⟨by rw [deques_start, size_workers_start, hsizes], ?_⟩
  intro v peer hpeer
  by_cases hv : v = w
  · rw [hv, phase_start_self hw] at hpeer
    cases hpeer
  · rw [phase_start_of_ne hv, Phase.peer?_of_not_running (hothers v hv)] at hpeer
    cases hpeer

/-- A worker that begins a run while nobody else is running. -/
theorem Alone.start (job : Job) (hunbroken : s.Unbroken) (hopen : s.gate.isOpen = true)
    (hsizes : s.deques.size = s.workers.size) (hw : w < s.workers.size)
    (hothers : ∀ v, v ≠ w → (s.phase v).isRunning = false) : (s.start w).Alone job w where
  unbroken := hunbroken.start w
  fit := fit_start_of_others hsizes hw hothers
  opened := by
    rw [gate_start]
    exact hopen
  swept := by
    rw [phase_start_self hw]
    trivial
  undisturbed := by
    rw [phase_start_self hw]
    trivial

theorem prospect_start (job : Job) (hsizes : s.deques.size = s.workers.size)
    (hw : w < s.workers.size) :
    (s.start w).prospect job w =
      { calls := s.calls.toList ++ (Span.clearing w s.spans).map fun index => ⟨w, index⟩
        memory := job.binding.invokeAll s.memory (Span.clearing w s.spans)
        tally :=
          { completed := (s.tally w).completed + (s.spans.flatMap Span.toList).length
            stolen := (s.tally w).stolen +
              ((s.spans.eraseIdx w).flatMap Span.toList).length } } := by
  have hspans : (s.start w).spans = s.spans := by rw [spans, deques_start, spans]
  have hlength : w < s.spans.length := by rwa [length_spans, hsizes]
  rw [prospect, phase_start_self hw, hspans, calls_start, memory_start, tally_start,
    Phase.prospect, Phase.uncalled_eq_agenda rfl, Phase.agenda, Errand.length_all hlength, Errand.countP_all,
    ← Errand.index_all, List.map_map]
  rfl

theorem prospect_of_finished (hfinished : s.phase w = .finished) (job : Job) :
    s.prospect job w = ⟨s.calls.toList, s.memory, s.tally w⟩ := by
  rw [prospect, hfinished]
  simp [Phase.prospect, Phase.uncalled, Phase.agenda, Binding.invokeAll]

/-- What a worker leaves behind that has gone through all the deques alone. -/
structure Cleared (job : Job) (w : Nat) (s s' : JobState) : Prop where
  finished : s'.phase w = .finished
  calls : s'.calls.toList =
    s.calls.toList ++ (Span.clearing w s.spans).map fun index => ⟨w, index⟩
  memory : s'.memory = job.binding.invokeAll s.memory (Span.clearing w s.spans)
  empty : ∀ q, s'.EmptyAt q
  completed : (s'.tally w).completed =
    (s.tally w).completed + (s.spans.flatMap Span.toList).length
  stolen : (s'.tally w).stolen =
    (s.tally w).stolen + ((s.spans.eraseIdx w).flatMap Span.toList).length

theorem Alone.cleared (h : s'.Alone job w) (hover : (s'.phase w).isRunning = false)
    (hsizes : s.deques.size = s.workers.size) (hw : w < s.workers.size)
    (hprospect : s'.prospect job w = (s.start w).prospect job w) : Cleared job w s s' := by
  have hfinished : s'.phase w = .finished := by
    have hundisturbed := h.undisturbed
    cases hphase : s'.phase w with
    | finished => rfl
    | idle | dead =>
        rw [hphase] at hundisturbed
        cases hundisturbed
    | _ =>
        rw [hphase] at hover
        cases hover
  have hswept := h.swept
  rw [hfinished] at hswept
  rw [prospect_of_finished hfinished, prospect_start job hsizes hw] at hprospect
  injection hprospect with hcalls hmemory htally
  exact {
    finished := hfinished
    calls := hcalls
    memory := hmemory
    empty := hswept
    completed := congrArg Tally.completed htally
    stolen := congrArg Tally.stolen htally }

/-- The job is as it was, but for a worker that has left at the gate. -/
structure Left (w : Nat) (s s' : JobState) : Prop where
  finished : s'.phase w = .finished
  calls : s'.calls = s.calls
  memory : s'.memory = s.memory
  deques : s'.deques = s.deques
  tally : ∀ v, s'.tally v = s.tally v

end JobState

namespace Session

/-- In front of an abandoned gate a worker takes one step, and its run is over. -/
theorem finish_of_abandoned (job : Job) {s : JobState} {w : Nat} {worker : Worker}
    (results : Array (Option Nat × ActionResult)) (hworker : s.workers[w]? = some worker)
    (hgate : s.gate.state = .abandoned) (haborted : s.aborted = none) :
    (finish job [] w ⟨s.start w, results⟩).state = s.setPhase w worker .finished := by
  obtain ⟨n, hn⟩ : ∃ n, budget (s.start w) (1 + hookLength []) = n + 2 := by
    refine ⟨budget (s.start w) (1 + hookLength []) - 2, ?_⟩
    have hle : 2 * 1 ≤ budget (s.start w) (1 + hookLength []) :=
      Nat.mul_le_mul (by omega) (by omega)
    omega
  have hw := JobState.lt_size hworker
  have hwaiting := JobState.phase_setPhase_self hw worker .atGate
  have hready : (s.setPhase w worker .atGate).isReady w = true := by
    simp [JobState.isReady, hwaiting, haborted, Gate.wait?, hgate]
  have hleft : job.advance (s.setPhase w worker .atGate) w = s.setPhase w worker .finished := by
    have hworker' := JobState.workers_setPhase_self hw worker .atGate
    simp only [Job.advance, hworker', JobState.gate_setPhase, Gate.wait?, hgate]
    simp [JobState.setPhase]
  have hover := JobState.phase_setPhase_self hw worker .finished
  rw [finish, hn, JobState.start_eq hworker]
  simp [play, hwaiting, hready, hleft, hover, haborted, hooked_nil, play_nil, Phase.isOver]

/-- A worker that runs while nobody else does, whatever is left in the deques. Behind an open gate,
and with a kernel that gives a result everywhere, it comes to its end with nothing left: it has
called the kernel for its own indices from the front and then for those of the others, in rounds
from the back. If the gate was abandoned it comes to its end without a change. -/
theorem lone_worker_clears_in_rounds (job : Job) (w : Nat) (s : JobState)
    (results : Array (Option Nat × ActionResult)) (hunbroken : s.Unbroken)
    (hsizes : s.deques.size = s.workers.size) (hw : w < s.workers.size)
    (hothers : ∀ v, v ≠ w → (s.phase v).isRunning = false) :
    ∃ steps c, job.follow (List.replicate steps (.step w)) { state := s.start w } = some c ∧
      c.state = (finish job [] w ⟨s.start w, results⟩).state ∧
      (s.gate.isOpen = true → (∀ index, job.unwinding index = none) →
        JobState.Cleared job w s c.state) ∧
      (s.gate.state = .abandoned → JobState.Left w s c.state) := by
  obtain ⟨steps, c, hfollow, hstate⟩ :=
    exists_follow_of_finish job w { state := s.start w } results (hunbroken.start w)
  refine ⟨steps, c, hfollow, hstate, ?_, ?_⟩
  · intro hopen hkernel
    have halone := JobState.Alone.start job hunbroken hopen hsizes hw hothers
    obtain ⟨hlast, hprospect⟩ := Job.alone_steps halone hkernel hfollow
    have hover := not_running_of_finish job w (s := ⟨s.start w, results⟩) halone.unbroken
      halone.fit (Gate.isSome_wait?_of_isOpen halone.opened)
    rw [← hstate] at hover
    exact hlast.cleared hover hsizes hw hprospect
  · intro habandoned
    have hworker := Array.getElem?_eq_getElem hw
    rw [hstate, finish_of_abandoned job results hworker habandoned hunbroken.aborted]
    exact {
      finished := JobState.phase_setPhase_self hw ..
      calls := rfl
      memory := rfl
      deques := rfl
      tally := JobState.tally_setPhase hworker _ }

/-- The second of three workers, whose own deque holds one index. -/
theorem lone_worker_clears_three_deques :
    let s := JobState.initial .reversedSum ⟨3, .abort, .opened⟩ [⟨0, 3⟩, ⟨3, 4⟩, ⟨4, 6⟩]
    ∃ c : Course, c.state = (finish (.reversedSum fun _ => none) [] 1 ⟨s.start 1, #[]⟩).state ∧
      c.state.called = [3, 2, 5, 1, 4, 0] ∧ c.state.tally 1 = ⟨6, 5⟩ := by
  intro s
  obtain ⟨steps, c, -, hstate, hcleared, -⟩ :=
    lone_worker_clears_in_rounds (.reversedSum fun _ => none) 1 s #[] (.initial ..) rfl
      (by decide) fun v _ => by rw [JobState.phase_initial]; rfl
  have hc := hcleared rfl fun _ => rfl
  refine ⟨c, hstate, ?_, ?_⟩
  · rw [JobState.called, hc.calls]
    rfl
  · have htally : c.state.tally 1 = ⟨(c.state.tally 1).completed, (c.state.tally 1).stolen⟩ := rfl
    rw [htally, hc.completed, hc.stolen]
    rfl

end Session

end Elementwise
