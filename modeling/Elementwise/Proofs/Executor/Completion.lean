import Elementwise.Proofs.Executor.Call
import Elementwise.Proofs.Job.Ending

/-!
The completion check. It compares one sum with the number of indices, and that is enough: whatever a
launch does with the workers, an index is completed at most once and counted exactly then.
-/

namespace Elementwise

namespace Course.Balanced

variable {elements : Nat} {c : Course}

theorem completed_perm_of_total (h : c.Balanced (List.range elements))
    (htotal : total (fun worker => worker.tally.completed) c.state.workers = elements) :
    c.completed.Perm (List.range elements) := by
  refine h.completed_subperm.perm_of_length_le ?_
  rw [List.length_range, ← h.counted, htotal]

theorem total_lt_of_not_mem (h : c.Balanced (List.range elements)) {index : Nat}
    (hindex : index < elements) (hmissing : index ∉ c.completed) :
    total (fun worker => worker.tally.completed) c.state.workers < elements := by
  have hle := h.completed_subperm.length_le
  rw [← h.counted, List.length_range] at hle
  refine Nat.lt_of_le_of_ne hle fun htotal => hmissing ?_
  exact (h.completed_perm_of_total htotal).symm.subset (List.mem_range.mpr hindex)

end Course.Balanced

namespace Executor

/-- A call by a launch that keeps no contract. Workers begin and go on in any order, also again
after their end, the gate is settled at will, and the launch reports what it likes. -/
def attempted (e : Executor) (record : LaunchRecord) (events : List Event) (memory : Memory)
    (request : Request) : Option (Outcome × Course) :=
  e.call memory request fun job _ opening => (job.follow events opening).map fun c => (.ok record, c)

variable {e : Executor} {memory : Memory} {request : Request} {binding : Binding}
  {record : LaunchRecord} {events : List Event} {outcome : Outcome} {c : Course}

theorem attempted_eq_some
    (hbinding : Binding.ofOperands? request.kernel request.operands = .ok binding)
    (helements : 0 < request.elements)
    (h : e.attempted record events memory request = some (outcome, c)) :
    c.Balanced (List.range request.elements) ∧ c.state.Unbroken ∧
      outcome = e.conclude (e.partition request.elements) (.ok record) c.state := by
  rw [attempted, call_of_pos hbinding helements] at h
  obtain ⟨_, hlaunch, hend⟩ := Option.map_eq_some_iff.mp h
  obtain ⟨c, hfollow, rfl⟩ := Option.map_eq_some_iff.mp hlaunch
  cases hend
  refine ⟨?_, ?_, rfl⟩
  · exact (Course.Balanced.keeps _ _).follow (e.balanced_opening memory _) hfollow
  · exact (JobState.Unbroken.keeps _).follow (.initial memory _ _) hfollow

theorem conclude_of_short (record : LaunchRecord) (hverify : e.settings.verifyCompletion = true)
    {p : Partition} {s : JobState} (haborted : s.aborted = none)
    (hover : ∀ w, (s.phase w).isRunning = false)
    (hshort : total (fun worker => worker.tally.completed) s.workers < p.elements) :
    (∃ loss rest, record.payloads = loss :: rest ∧ e.conclude p (.ok record) s = .unwound loss.2) ∨
      (∃ w, record.refused = some w ∧
        e.conclude p (.ok record) s = .failed (.threadSpawn w p.workers)) ∨
      e.conclude p (.ok record) s = e.raised
        (.consistency p.elements (total (fun worker => worker.tally.completed) s.workers)) := by
  have hcheck : e.verify (e.report p record.spawned s) = e.raised
      (.consistency p.elements (total (fun worker => worker.tally.completed) s.workers)) := by
    have hcompleted := completed_report e p record.spawned s
    rw [← hcompleted] at hshort ⊢
    exact verify_of_ne hverify (Nat.ne_of_lt hshort)
  rw [conclude_eq_of_over haborted hover, hcheck]
  cases hpayloads : record.payloads with
  | cons loss rest => exact .inl ⟨loss, rest, rfl, rfl⟩
  | nil =>
      cases hrefused : record.refused with
      | none => exact .inr (.inr rfl)
      | some w =>
          by_cases hopen : s.gate.isOpen = true
          · exact .inr (.inr (if_pos hopen))
          · exact .inr (.inl ⟨w, rfl, if_neg hopen⟩)

/-- The check does not rest on the launch. If a checked call returns, each index was completed once,
and the counters say so. If an index was not completed the counters fall short; and when nobody is
running any more the call unwinds with a payload that was reported, fails for want of a thread, or
finds the difference. -/
theorem completion_check_sound (e : Executor) (memory : Memory) (request : Request)
    (binding : Binding) (record : LaunchRecord) (events : List Event) (outcome : Outcome)
    (c : Course)
    (hbinding : Binding.ofOperands? request.kernel request.operands = .ok binding)
    (helements : 0 < request.elements) (hverify : e.settings.verifyCompletion = true)
    (hrun : e.attempted record events memory request = some (outcome, c)) :
    (∀ report, outcome = .returned report →
      c.completed.Perm (List.range request.elements) ∧ report.completed = request.elements) ∧
    ∀ index < request.elements, index ∉ c.completed →
      ∃ count < request.elements,
        total (fun worker => worker.tally.completed) c.state.workers = count ∧
        ((∀ w, (c.state.phase w).isRunning = false) →
          (∃ loss rest, record.payloads = loss :: rest ∧ outcome = .unwound loss.2) ∨
          (∃ w, record.refused = some w ∧
            outcome = .failed (.threadSpawn w (e.partition request.elements).workers)) ∨
          outcome = e.raised (.consistency request.elements count)) := by
  obtain ⟨hbalanced, hunbroken, rfl⟩ := attempted_eq_some hbinding helements hrun
  have helements' : (e.partition request.elements).elements = request.elements :=
    Partition.elements_split _ _
  refine ⟨fun report hreport => ?_, fun index hindex hmissing => ?_⟩
  · obtain ⟨_, ⟨⟩, -, -, hcheck⟩ := conclude_eq_returned hreport
    by_cases hcompleted : total (fun worker => worker.tally.completed) c.state.workers =
        request.elements
    · have hsame : (e.report (e.partition request.elements) record.spawned c.state).completed =
          request.elements := (completed_report ..).trans hcompleted
      rw [verify_of_eq (hsame.trans helements'.symm)] at hcheck
      cases hcheck
      exact ⟨hbalanced.completed_perm_of_total hcompleted, hsame⟩
    · have hdiffer : (e.report (e.partition request.elements) record.spawned c.state).completed ≠
          (e.partition request.elements).elements := by
        rw [completed_report, helements']
        exact hcompleted
      rw [verify_of_ne hverify hdiffer] at hcheck
      unfold raised at hcheck
      split at hcheck <;> cases hcheck
  · have hshort := hbalanced.total_lt_of_not_mem hindex hmissing
    refine ⟨_, hshort, rfl, fun hover => ?_⟩
    rw [← helements'] at hshort
    have hend := conclude_of_short record hverify hunbroken.aborted hover hshort
    rwa [helements'] at hend

/-- Only the second worker runs. It dies at index 1, nobody is told, and another run of it does the
rest and steals from the first worker. -/
theorem completion_check_sound_of_rerun :
    ∃ events outcome c, twoWorkers.attempted ⟨2, none, []⟩ events .reversedSum .middleUnwinding =
        some (outcome, c) ∧
      ∃ count < 3, outcome = twoWorkers.raised (.consistency 3 count) := by
  let events : List Event := [.settle 2, .start 1] ++ (List.replicate 4 1).map .step ++
    [.start 1] ++ (List.replicate 11 1).map .step
  have hrun : ((twoWorkers.job .middleUnwinding .reversedSum).follow events
      (twoWorkers.opening .reversedSum (twoWorkers.partition 3))).any fun c =>
        1 ∉ c.completed ∧
          (c.state.workers.any fun worker => worker.phase.isRunning) = false := by
    decide +kernel
  obtain ⟨c, hfollow, hlast⟩ := (Option.any_eq_true _ _).mp hrun
  obtain ⟨hmissing, hover⟩ := of_decide_eq_true hlast
  have hattempted : twoWorkers.attempted ⟨2, none, []⟩ events .reversedSum .middleUnwinding =
      some (twoWorkers.conclude (twoWorkers.partition 3) (.ok ⟨2, none, []⟩) c.state, c) := by
    rw [attempted, call_of_pos rfl (by decide)]
    exact congrArg (Option.map _) (congrArg (Option.map _) hfollow)
  have hsound := completion_check_sound twoWorkers .reversedSum .middleUnwinding .reversedSum _
    events _ c rfl (by decide) rfl hattempted
  obtain ⟨count, hcount, -, hend⟩ := hsound.2 1 (by decide) hmissing
  rcases hend (JobState.any_isRunning_eq_false.mp hover) with hloss | hrefused | hraised
  · obtain ⟨loss, rest, hpayloads, -⟩ := hloss
    cases hpayloads
  · obtain ⟨w, hrefused, -⟩ := hrefused
    cases hrefused
  · exact ⟨events, _, c, hattempted, count, hcount, hraised⟩

end Executor

end Elementwise
