import Elementwise.Proofs.Executor.Schedule
import Mathlib.Data.List.Count
import Mathlib.Tactic.Choose

/-!
Kernels that unwind. A worker that dies in a call loses the index of that call and nothing else: the
others go on with what it left in its deque, no lock stays behind, and the call passes on what the
dead worker with the lowest number unwound with.
-/

namespace Elementwise

namespace Executor

/-- Of several losses of a team that of the lowest worker decides the outcome. -/
theorem conclude_of_losses {e : Executor} {p : Partition} {team : Team p.workers} {s : JobState}
    (haborted : s.aborted = none) (hover : ∀ w, (s.phase w).isRunning = false)
    (hlosses : s.losses team.members ≠ []) :
    ∃ w cause, (w, cause) ∈ s.losses team.members ∧
      e.conclude p (.ok (team.record s)) s = .unwound cause ∧
        ∀ loss ∈ s.losses team.members, w ≤ loss.1 := by
  have hordered : (s.losses team.members).Pairwise fun a b => a.1 < b.1 :=
    Launch.pairwise_losses _ team.ascending
  rw [conclude_eq_of_over haborted hover, Team.record]
  cases hlost : s.losses team.members with
  | nil => exact absurd hlost hlosses
  | cons loss rest =>
      obtain ⟨w, cause⟩ := loss
      rw [hlost] at hordered
      refine ⟨w, cause, List.mem_cons_self, rfl, fun loss hloss => ?_⟩
      rcases List.mem_cons.mp hloss with rfl | hrest
      · exact Nat.le_refl w
      · exact Nat.le_of_lt ((List.pairwise_cons.mp hordered).1 loss hrest)

/-- What unwinding calls do to a call as a whole, at an open gate. -/
structure Contained (request : Request) (members : List Nat) (outcome : Outcome) (c : Course) :
    Prop where
  /-- No index is called twice. -/
  called : c.state.called.Nodup
  /-- A worker that died did so in a call, of what the kernel unwound with there. -/
  deaths : ∀ w held cause, c.state.phase w = .dead held cause →
    ∃ index < request.elements, held = some index ∧ request.unwinding index = some cause
  /-- Two workers do not die at one index. -/
  distinct : ∀ v w index cause cause', c.state.phase v = .dead (some index) cause →
    c.state.phase w = .dead (some index) cause' → v = w
  locks : ∀ deque ∈ c.state.deques, deque.lock = ⟨Lock.free⟩
  aborted : c.state.aborted = none
  /-- If anybody survives, only the indices at which the kernel unwinds are left. -/
  survived : (∃ w ∈ members, c.state.phase w = .finished) →
    ∀ index < request.elements, request.unwinding index = none → c.completed.count index = 1
  survivor : (List.range request.elements).countP
      (fun index => (request.unwinding index).isSome) < members.length →
    ∃ w ∈ members, c.state.phase w = .finished
  /-- The lowest worker that died decides the outcome. -/
  unwound : (∃ index < request.elements, (request.unwinding index).isSome = true) →
    ∃ w ∈ members, ∃ held cause, c.state.phase w = .dead held cause ∧ outcome = .unwound cause ∧
      ∀ v held' cause', c.state.phase v = .dead held' cause' → w ≤ v
  /-- A kernel that gives all results lets the call return. -/
  returned : (∀ index < request.elements, request.unwinding index = none) →
    ∃ report, outcome = .returned report

namespace Concluded

variable {e : Executor} {memory : Memory} {request : Request} {binding : Binding}
  {team : Team (e.partition request.elements).workers} {outcome : Outcome} {c : Course}

theorem explained (h : e.Concluded memory request binding team outcome c) :
    c.Explained (e.job request binding) :=
  h.keeps _ (Course.Explained.keeps _) (.initial _ memory _ _)

theorem unbroken (h : e.Concluded memory request binding team outcome c) : c.state.Unbroken :=
  h.keeps _ (JobState.Unbroken.keeps _) (.initial memory _ _)

theorem ended_nodup (h : e.Concluded memory request binding team outcome c) :
    (c.completed ++ c.unwound).Nodup ∧ c.state.called.Nodup := by
  have htaken : c.taken.Nodup :=
    List.Nodup.of_append_left (h.balanced.taken_append_perm.nodup_iff.mpr List.nodup_range)
  obtain ⟨hended, hcalled⟩ := h.balanced.ended_perm h.joined.not_running
  exact ⟨hended.nodup_iff.mpr htaken, hcalled.nodup_iff.mpr htaken⟩

theorem noted_of_dead (h : e.Concluded memory request binding team outcome c) {w : Nat}
    {held : Option Nat} {cause : Payload} (hdead : c.state.phase w = .dead held cause) :
    ∃ index < request.elements, held = some index ∧ request.unwinding index = some cause ∧
      Deed.unwound w index ∈ c.deeds := by
  have hphase := h.explained.phases w
  rw [hdead] at hphase
  cases held with
  | none =>
      obtain ⟨deque, hdeque, hlock⟩ := hphase
      exact absurd hlock (h.unbroken.not_poisoned hdeque)
  | some index =>
      obtain ⟨hcause, hdeed⟩ := hphase
      refine ⟨index, ?_, rfl, hcause, hdeed⟩
      have hended := (h.balanced.ended_perm h.joined.not_running).1
      have htaken := hended.subset (List.mem_append_right _ (Course.mem_unwound hdeed))
      exact List.mem_range.mp (Multiset.mem_coe.mp (h.balanced.mem_of_taken htaken))

theorem eq_of_dead (h : e.Concluded memory request binding team outcome c) {v w index : Nat}
    {cause cause' : Payload} (hv : c.state.phase v = .dead (some index) cause)
    (hw : c.state.phase w = .dead (some index) cause') : v = w := by
  obtain ⟨i, -, hi, -, hdeed⟩ := h.noted_of_dead hv
  obtain ⟨j, -, hj, -, hdeed'⟩ := h.noted_of_dead hw
  cases hi
  cases hj
  exact Course.eq_of_unwound (List.Nodup.of_append_right h.ended_nodup.1) hdeed hdeed'

theorem count_completed (h : e.Concluded memory request binding team outcome c)
    (hopen : c.state.gate.isOpen = true) {w : Nat} (hfinished : c.state.phase w = .finished)
    {index : Nat} (hindex : index < request.elements) (hresult : request.unwinding index = none) :
    c.completed.count index = 1 := by
  have hcovered := (h.balanced.covered h.joined.manned hopen h.joined.not_running hfinished).1
  have honce := List.count_eq_one_of_mem h.ended_nodup.1
    (hcovered.symm.subset (List.mem_range.mpr hindex))
  have hunwound : index ∉ c.unwound := by
    intro hmem
    have hsome := h.explained.unwound index hmem
    rw [show (e.job request binding).unwinding index = none from hresult] at hsome
    cases hsome
  rwa [List.count_append, List.count_eq_zero_of_not_mem hunwound, Nat.add_zero] at honce

/-- Every worker that dies takes an index of its own at which the kernel unwinds, so that with too
few of these somebody survives. -/
theorem exists_finished (h : e.Concluded memory request binding team outcome c)
    (hfew : (List.range request.elements).countP
      (fun index => (request.unwinding index).isSome) < team.members.length) :
    ∃ w ∈ team.members, c.state.phase w = .finished := by
  by_contra hnone
  have hdead (w : Nat) : ∃ index, w ∈ team.members → index < request.elements ∧
      ∃ cause, request.unwinding index = some cause ∧
        c.state.phase w = .dead (some index) cause := by
    by_cases hw : w ∈ team.members
    · rcases h.joined.finished_or_lost hw with hfinished | ⟨cause, hlost⟩
      · exact absurd ⟨w, hw, hfinished⟩ hnone
      · obtain ⟨held, hphase⟩ := JobState.dead_of_mem_losses hlost
        obtain ⟨index, hlt, rfl, hcause, -⟩ := h.noted_of_dead hphase
        exact ⟨index, fun _ => ⟨hlt, cause, hcause, hphase⟩⟩
    · exact ⟨0, fun hmem => absurd hmem hw⟩
  choose index hindex using hdead
  have hnodup : (team.members.map index).Nodup := by
    refine List.Nodup.map_on (fun v hv w hw heq => ?_) team.nodup
    obtain ⟨-, cause, -, hphase⟩ := hindex v hv
    obtain ⟨-, cause', -, hphase'⟩ := hindex w hw
    rw [← heq] at hphase'
    exact h.eq_of_dead hphase hphase'
  have hsubset : team.members.map index ⊆ (List.range request.elements).filter
      fun index => (request.unwinding index).isSome := by
    intro i hi
    obtain ⟨w, hw, rfl⟩ := List.mem_map.mp hi
    obtain ⟨hlt, cause, hcause, -⟩ := hindex w hw
    exact List.mem_filter.mpr ⟨List.mem_range.mpr hlt, by rw [hcause]; rfl⟩
  have hlength := (hnodup.subperm hsubset).length_le
  rw [List.length_map, ← List.countP_eq_length_filter] at hlength
  exact absurd hlength (Nat.not_le_of_lt hfew)

/-- Where the kernel unwinds, somebody dies of it: else all indices would have been completed. -/
theorem losses_ne_nil (h : e.Concluded memory request binding team outcome c)
    (hopen : c.state.gate.isOpen = true) {index : Nat} (hindex : index < request.elements)
    (hunwinding : (request.unwinding index).isSome = true) :
    c.state.losses team.members ≠ [] := by
  intro hlosses
  have hall := h.completed_perm (Nat.zero_lt_of_lt hindex) hlosses hopen
  have hresult := h.explained.completed index (hall.symm.subset (List.mem_range.mpr hindex))
  rw [show request.unwinding index = none from hresult] at hunwinding
  cases hunwinding

theorem outcome_of_losses (h : e.Concluded memory request binding team outcome c)
    (hlosses : c.state.losses team.members ≠ []) :
    ∃ w ∈ team.members, ∃ held cause, c.state.phase w = .dead held cause ∧
      outcome = .unwound cause ∧
        ∀ v held' cause', c.state.phase v = .dead held' cause' → w ≤ v := by
  obtain ⟨w, cause, hlost, hconclude, hleast⟩ :=
    conclude_of_losses h.unbroken.aborted h.joined.not_running hlosses
  obtain ⟨held, hdead⟩ := JobState.dead_of_mem_losses hlost
  refine ⟨w, (JobState.mem_losses.mp hlost).1, held, cause, hdead,
    h.outcome.trans hconclude, ?_⟩
  intro v held' cause' hv
  refine hleast (v, cause') (JobState.mem_losses.mpr ⟨?_, ?_⟩)
  · exact h.joined.mem_of_phase_ne (by rw [hv]; exact Phase.noConfusion)
  · rw [hv]
    rfl

/-- Where the kernel does not unwind nobody is lost, and the check finds every index counted. -/
theorem returned_of_results (h : e.Concluded memory request binding team outcome c)
    (helements : 0 < request.elements) (hopen : c.state.gate.isOpen = true)
    (hresults : ∀ index < request.elements, request.unwinding index = none) :
    ∃ report, outcome = .returned report := by
  have hlosses : c.state.losses team.members = [] := by
    refine List.eq_nil_iff_forall_not_mem.mpr fun ⟨w, cause⟩ hlost => ?_
    obtain ⟨held, hdead⟩ := JobState.dead_of_mem_losses hlost
    obtain ⟨index, hlt, -, hcause, -⟩ := h.noted_of_dead hdead
    rw [hresults index hlt] at hcause
    cases hcause
  have hcompleted :
      (e.report (e.partition request.elements) team.members.length c.state).completed =
        (e.partition request.elements).elements :=
    (h.counted (h.completed_perm helements hlosses hopen) _).trans
      (Partition.elements_split _ _).symm
  have houtcome := h.outcome
  rw [conclude_eq_of_over h.unbroken.aborted h.joined.not_running, Team.record, hlosses,
    verify_of_eq hcompleted] at houtcome
  refine ⟨e.report (e.partition request.elements) team.members.length c.state, ?_⟩
  rw [houtcome]
  cases team.refused with
  | none => rfl
  | some w => exact if_pos hopen

end Concluded

/-- A kernel may unwind anywhere. Whatever the launch and the order of turns, at an open gate this
is contained, and the outcome shows it. -/
theorem unwinding_contained (e : Executor) (memory : Memory) (request : Request) (binding : Binding)
    (team : Team (e.partition request.elements).workers) (turns : List Turn) (outcome : Outcome)
    (c : Course) (hbinding : Binding.ofOperands? request.kernel request.operands = .ok binding)
    (helements : 0 < request.elements)
    (hopen : (e.gate (e.partition request.elements)).opensFor team.members.length = true)
    (hrun : e.scheduled team.plan turns memory request = some (outcome, c)) :
    Contained request team.members outcome c := by
  have h := concluded_of_scheduled hbinding helements hrun
  rw [← h.isOpen_eq] at hopen
  exact {
    called := h.ended_nodup.2
    deaths := by
      intro w held cause hdead
      obtain ⟨index, hlt, hheld, hcause, -⟩ := h.noted_of_dead hdead
      exact ⟨index, hlt, hheld, hcause⟩
    distinct := fun v w index cause cause' hv hw => h.eq_of_dead hv hw
    locks := h.unbroken.free
    aborted := h.unbroken.aborted
    survived := by
      rintro ⟨w, -, hfinished⟩ index hindex hresult
      exact h.count_completed hopen hfinished hindex hresult
    survivor := h.exists_finished
    unwound := by
      rintro ⟨index, hindex, hunwinding⟩
      exact h.outcome_of_losses (h.losses_ne_nil hopen hindex hunwinding)
    returned := h.returned_of_results helements hopen }

/-- The second worker dies at index 1; the first one does index 2 in its place. -/
theorem unwinding_contained_in_middle :
    ∃ turns c, twoWorkers.scheduled (Team.all 2).plan turns .reversedSum .middleUnwinding =
        some (.unwound (.kernelFailure 1), c) ∧
      c.completed.count 2 = 1 := by
  let turns : List Turn := [.launcher, .launcher, .launcher] ++
    [0, 1, 0, 1, 0, 1, 0, 1, 0, 0, 0, 0, 0, 0, 0].map .worker ++ [.launcher, .launcher]
  have hrun : (Launching.run (twoWorkers.job .middleUnwinding .reversedSum) turns
        { todo := (Team.all 2).plan,
          course := twoWorkers.opening .reversedSum (twoWorkers.partition 3) }).any fun l =>
      l.todo.ending? = some (.ok ⟨2, none, [(1, .kernelFailure 1)]⟩) ∧
        l.course.state.aborted = none ∧ l.course.state.phase 0 = .finished := by decide +kernel
  obtain ⟨l, hrun, hlast⟩ := (Option.any_eq_true _ _).mp hrun
  obtain ⟨hending, haborted, hfinished⟩ := of_decide_eq_true hlast
  have hjoined := joined_of_run (p := twoWorkers.partition 3) hrun hending
  have hscheduled : twoWorkers.scheduled (Team.all 2).plan turns .reversedSum .middleUnwinding =
      some (.unwound (.kernelFailure 1), l.course) := by
    rw [scheduled, scheduledFrom_of_run rfl (by decide) hrun hending,
      conclude_eq_of_over haborted hjoined.1.not_running]
  have hcontained := unwinding_contained twoWorkers .reversedSum .middleUnwinding .reversedSum
    (Team.all 2) turns _ l.course rfl (by decide) (by decide) hscheduled
  have hcount := hcontained.survived ⟨0, by decide, hfinished⟩ 2 (by decide) rfl
  exact ⟨turns, l.course, hscheduled, hcount⟩

end Executor

end Elementwise
