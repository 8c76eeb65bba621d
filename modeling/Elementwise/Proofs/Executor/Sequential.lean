import Elementwise.Proofs.Executor.Schedule
import Elementwise.Proofs.Job.Effect

/-!
Parallel calls and the sequential loop. On separate elements a call that returns leaves the memory
that a loop over the indices leaves, whatever the settings, the launch and the order of steps.
-/

namespace Elementwise

namespace Executor

variable {e : Executor} {memory : Memory} {request : Request} {binding : Binding}
  {turns : List Turn} {report : Report} {c : Course}

theorem memory_eq_of_returned
    (hbinding : Binding.ofOperands? request.kernel request.operands = .ok binding)
    (hseparate : binding.Separate request.elements)
    {team : Team (e.partition request.elements).workers}
    (hrun : e.scheduled team.plan turns memory request = some (.returned report, c)) :
    c.state.memory = binding.invokeAll memory (List.range request.elements) := by
  rcases Nat.eq_zero_or_pos request.elements with hzero | hpos
  · rw [scheduled_of_empty hbinding hzero] at hrun
    cases hrun
    rw [hzero]
    rfl
  · have hconcluded := concluded_of_scheduled hbinding hpos hrun
    have heffected : c.Effected (e.job request binding) memory request.elements :=
      hconcluded.keeps _ (Course.Effected.keeps _ memory hseparate)
        (.initial _ memory _ (Partition.flatMap_toList_ranges _ _))
    exact heffected.memory_eq_sequential hseparate (hconcluded.completed_of_returned hpos)

/-- A call that returns leaves the memory of the sequential loop. So only the bytes of its outputs
change, and any other settings, launch or order of turns would leave the same memory. -/
theorem returned_memory_eq_sequential (e : Executor) (memory : Memory) (request : Request)
    (binding : Binding) (team : Team (e.partition request.elements).workers) (turns : List Turn)
    (report : Report) (c : Course)
    (hbinding : Binding.ofOperands? request.kernel request.operands = .ok binding)
    (hseparate : binding.Separate request.elements)
    (hrun : e.scheduled team.plan turns memory request = some (.returned report, c)) :
    c.state.memory = binding.invokeAll memory (List.range request.elements) ∧
      (∀ address, (∀ i < request.elements, address ∉ binding.outputBytes i) →
        c.state.memory.read address = memory.read address) ∧
      ∀ (e' : Executor) (team' : Team (e'.partition request.elements).workers)
        (turns' : List Turn) (report' : Report) (c' : Course),
        e'.scheduled team'.plan turns' memory request = some (.returned report', c') →
          c'.state.memory = c.state.memory := by
  have hmemory := memory_eq_of_returned hbinding hseparate hrun
  refine ⟨hmemory, fun address haddress => ?_, fun e' team' turns' report' c' hrun' => ?_⟩
  · rw [hmemory]
    exact Binding.read_invokeAll (fun i hi => haddress i (List.mem_range.mp hi)) memory
  · rw [hmemory]
    exact memory_eq_of_returned hbinding hseparate hrun'

/-- Two workers are launched, and they take turns until three indices are done. -/
def takingTurns : List Turn :=
  [.launcher, .launcher, .launcher] ++
    [0, 1, 0, 1, 0, 1, 0, 1, 0, 1, 0, 1, 0, 1, 1, 1, 1, 1].map .worker ++ [.launcher, .launcher]

/-- Two workers that take turns leave the sums in reverse order. -/
theorem returned_memory_eq_sequential_of_two_workers :
    ∃ turns report c,
      twoWorkers.scheduled (Team.all 2).plan turns .reversedSum (.reversedSum fun _ => none) =
        some (.returned report, c) ∧
      c.state.memory = Binding.reversedSum.invokeAll .reversedSum (List.range 3) ∧
      c.state.memory = ⟨⟨#[1, 2, 3, 10, 13, 12, 11, 0]⟩⟩ := by
  have hrun : (Launching.run (twoWorkers.job (.reversedSum fun _ => none) .reversedSum) takingTurns
        { todo := (Team.all 2).plan,
          course := twoWorkers.opening .reversedSum (twoWorkers.partition 3) }).any fun l =>
      l.todo.ending? = some (.ok ⟨2, none, []⟩) ∧ l.course.state.aborted = none ∧
        (twoWorkers.report (twoWorkers.partition 3) 2 l.course.state).completed = 3 := by
    decide +kernel
  obtain ⟨l, hrun, hlast⟩ := (Option.any_eq_true _ _).mp hrun
  obtain ⟨hending, haborted, hcompleted⟩ := of_decide_eq_true hlast
  have hscheduled := scheduled_eq_returned twoWorkers .reversedSum (.reversedSum fun _ => none)
    (Team.all 2) rfl (by decide) hrun hending haborted hcompleted
  have hseparate : Binding.reversedSum.Separate 3 := by decide +kernel
  have hmemory := returned_memory_eq_sequential twoWorkers .reversedSum
    (.reversedSum fun _ => none) .reversedSum (Team.all 2) takingTurns _ l.course rfl hseparate
    hscheduled
  have hbytes : Binding.reversedSum.invokeAll .reversedSum (List.range 3) =
      ⟨⟨#[1, 2, 3, 10, 13, 12, 11, 0]⟩⟩ := rfl
  exact ⟨takingTurns, _, l.course, hscheduled, hmemory.1, hmemory.1.trans hbytes⟩

end Executor

end Elementwise
