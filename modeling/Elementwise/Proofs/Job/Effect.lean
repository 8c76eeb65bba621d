import Elementwise.Proofs.Job.Balance
import Elementwise.Proofs.Job.Ending
import Elementwise.Proofs.Operand.Separation

/-!
What a job does to the memory. Calls may overlap: one worker reads its inputs, others write results,
and the first one writes its own later. On separate elements this cannot be seen, and at all times
the memory is the initial one after the completed calls.
-/

namespace Elementwise

/-- A result that is about to be written is the one that `value` gives. -/
def Phase.Carries (value : Nat → UInt64) : Phase → Prop
  | storing index _ bits => bits = value index
  | _ => True

theorem Phase.carries_of_not_ending {value : Nat → UInt64} {phase : Phase}
    (h : phase.isEnding = false) : phase.Carries value := by
  cases phase with
  | storing => cases h
  | _ => trivial

/-- The memory is the initial one after the completed calls, and every result under way is the one
that its call has on the initial memory. -/
structure Course.Effected (job : Job) (memory : Memory) (elements : Nat) (c : Course) : Prop where
  balanced : c.Balanced (List.range elements)
  written : c.state.memory = job.binding.invokeAll memory c.completed
  carried : ∀ w, (c.state.phase w).Carries (job.binding.evaluate memory)

namespace Course.Effected

variable {job : Job} {memory : Memory} {elements : Nat} {c : Course}

theorem initial (job : Job) (memory : Memory) (gate : Gate) {spans : List Span}
    (hspans : spans.flatMap Span.toList = List.range elements) :
    Effected job memory elements { state := .initial memory gate spans } := by
  refine ⟨?_, rfl, fun w => ?_⟩
  · rw [← hspans]
    exact .initial memory gate spans
  · rw [JobState.phase_initial]
    trivial

theorem completed_lt (h : c.Effected job memory elements) {index : Nat}
    (hindex : index ∈ c.completed) : index < elements :=
  List.mem_range.mp (Multiset.mem_coe.mp (h.balanced.mem_of_completed hindex))

/-- On separate elements a call that reads its inputs finds them as they were in the beginning. -/
theorem evaluate_eq (h : c.Effected job memory elements) (hseparate : job.binding.Separate elements)
    {w : Nat} {worker : Worker} (hworker : c.state.workers[w]? = some worker) {index : Nat}
    (hindex : index ∈ worker.phase.inHand) :
    job.binding.evaluate c.state.memory index = job.binding.evaluate memory index := by
  have hlt : index < elements :=
    List.mem_range.mp (Multiset.mem_coe.mp (h.balanced.mem_of_inHand hworker hindex))
  rw [h.written]
  exact hseparate.evaluate_invokeAll hlt (fun i hi => h.completed_lt hi) memory

theorem move_memory (h : c.Effected job memory elements) (hseparate : job.binding.Separate elements)
    {w : Nat} {deed : Option Deed} {s' : JobState} (hmove : Job.Move job c.state w deed s') :
    s'.memory = job.binding.invokeAll memory (c.note deed s').completed := by
  rw [Course.completed_note]
  cases hmove with
  | breach =>
      unfold Job.breach
      split <;> simpa using h.written
  | @store worker index origin bits hworker hphase =>
      have hbits : bits = job.binding.evaluate memory index := by
        have hcarried := h.carried w
        rw [JobState.phase_eq hworker, hphase] at hcarried
        exact hcarried
      have hindex : index ∈ worker.phase.inHand := by simp [hphase, Phase.inHand]
      have hsame := h.evaluate_eq hseparate hworker hindex
      rw [show (some (Deed.completed w index)).bind Deed.completed? = some index from rfl,
        Option.toList_some, Binding.invokeAll_append_singleton, ← h.written, Binding.invoke, hsame,
        ← hbits]
      rfl
  | _ => simpa [Deed.completed?] using h.written

theorem move_carried (h : c.Effected job memory elements)
    (hseparate : job.binding.Separate elements) {w : Nat} {deed : Option Deed} {s' : JobState}
    (hmove : Job.Move job c.state w deed s') :
    (s'.phase w).Carries (job.binding.evaluate memory) := by
  cases hmove with
  | @enter worker told hworker =>
      rw [JobState.phase_setPhase_self (by exact JobState.lt_size hworker)]
      cases told <;> trivial
  | @take worker q access deque found rest hworker haccess =>
      rw [JobState.phase_setPhase_self (by exact JobState.lt_size hworker)]
      exact Phase.carries_of_not_ending (Phase.isEnding_receive haccess _ found).2
  | @breach worker q access deque hworker =>
      unfold Job.breach
      split
      · exact h.carried w
      · rw [JobState.phase_setPhase_self (by exact JobState.lt_size hworker)]
        trivial
  | @call worker index origin hworker =>
      rw [JobState.phase_setPhase_self (by exact JobState.lt_size hworker)]
      trivial
  | @unwind worker index origin cause hworker =>
      rw [JobState.phase_setPhase_self (by exact JobState.lt_size hworker)]
      trivial
  | @read worker index origin hworker hphase =>
      rw [JobState.phase_setPhase_self (by exact JobState.lt_size hworker)]
      exact h.evaluate_eq hseparate hworker (by simp [hphase, Phase.inHand])
  | @store worker index origin bits hworker =>
      rw [JobState.phase_setPhase_self (by exact JobState.lt_size hworker)]
      exact Phase.carries_of_not_ending (Phase.isEnding_resume ..)

theorem keeps (job : Job) (memory : Memory) (hseparate : job.binding.Separate elements) :
    job.Keeps (Effected job memory elements) where
  unheld _ h := h.balanced.unheld
  move c w deed s' h hmove := by
    refine ⟨h.balanced.move hmove, h.move_memory hseparate hmove, fun v => ?_⟩
    by_cases hv : v = w
    · rw [hv]
      exact h.move_carried hseparate hmove
    · rw [Course.state_note, hmove.phase_of_ne hv]
      exact h.carried v
  start c w h hidle := by
    refine ⟨h.balanced.start hidle, ?_, fun v => ?_⟩
    · rw [JobState.memory_start]
      exact h.written
    · rcases c.state.phase_start w v with hsame | ⟨-, hgate⟩
      · rw [hsame]
        exact h.carried v
      · rw [hgate]
        trivial
  settle c started h := ⟨h.balanced.settle started, h.written, h.carried⟩

theorem memory_eq_sequential (h : c.Effected job memory elements)
    (hseparate : job.binding.Separate elements) (hall : c.completed.Perm (List.range elements)) :
    c.state.memory = job.binding.invokeAll memory (List.range elements) := by
  rw [h.written]
  exact hseparate.invokeAll_perm hall (fun i hi => h.completed_lt hi) memory

end Course.Effected

end Elementwise
