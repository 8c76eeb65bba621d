import Elementwise.Proofs.Executor.Unwinding
import Elementwise.Proofs.Launch.Progress
import Elementwise.Proofs.Launch.Untouched

/-!
Calls for which not every thread can be created. If a call fails it has done nothing, and whether it
fails only depends on the policy and on the number of workers that could be started. Otherwise these
workers do what the others would have done.
-/

namespace Elementwise

/-- Workers that have not begun have counted nothing. -/
structure Course.Spared (count : Nat) (c : Course) : Prop where
  unheld : c.state.Unheld
  size : c.state.workers.size = count
  tallies : ∀ w, c.state.phase w = .idle → c.state.tally w = {}

namespace Course.Spared

variable {count : Nat} {c : Course}

theorem initial (memory : Memory) (gate : Gate) (spans : List Span) :
    Spared spans.length { state := .initial memory gate spans } where
  unheld := JobState.unheld_initial memory gate spans
  size := by simp [JobState.initial]
  tallies w _ := JobState.tally_initial memory gate spans w

theorem move (h : c.Spared count) {job : Job} {w : Nat} {deed : Option Deed} {s' : JobState}
    (hmove : Job.Move job c.state w deed s') : (c.note deed s').Spared count := by
  refine ⟨hmove.unheld h.unheld, hmove.size_workers.trans h.size, ?_⟩
  intro v hidle
  rw [Course.state_note] at hidle ⊢
  have hv : v ≠ w := by
    rintro rfl
    exact hmove.phase_ne_idle hidle
  rw [hmove.phase_of_ne hv] at hidle
  rw [hmove.tally_of_ne hv]
  exact h.tallies v hidle

theorem keeps (job : Job) (count : Nat) : job.Keeps (Spared count) where
  unheld _ h := h.unheld
  move _ _ _ _ h hmove := h.move hmove
  start c w h hrunning := by
    refine ⟨(Job.keeps_unheld job).start c w h.unheld hrunning, ?_, ?_⟩
    · rw [JobState.size_workers_start]
      exact h.size
    · intro v hidle
      rw [JobState.tally_start]
      rcases c.state.phase_start w v with hsame | ⟨-, hgate⟩
      · exact h.tallies v (hsame.symm.trans hidle)
      · cases hgate.symm.trans hidle
  settle _ _ h := ⟨h.unheld, h.size, h.tallies⟩

end Course.Spared

namespace JobState

theorem map_worker_shares (s : JobState) :
    s.shares.map Share.worker = List.range s.workers.size := by
  rw [shares, List.map_map, List.range_eq_range', ← Array.length_toList]
  exact List.zipIdx_map_snd 0 s.workers.toList

theorem exists_worker_of_mem_shares {s : JobState} {share : Share} (h : share ∈ s.shares) :
    ∃ worker, s.workers[share.worker]? = some worker ∧ share.tally = worker.tally := by
  obtain ⟨⟨worker, w⟩, hmem, rfl⟩ := List.mem_map.mp h
  have hworker := List.mem_zipIdx_iff_getElem?.mp hmem
  rw [Array.getElem?_toList] at hworker
  exact ⟨worker, hworker, rfl⟩

theorem tally_of_mem_shares {s : JobState} {share : Share} (h : share ∈ s.shares) :
    share.tally = s.tally share.worker := by
  obtain ⟨worker, hworker, htally⟩ := exists_worker_of_mem_shares h
  rw [htally, tally_eq hworker]

end JobState

theorem Gate.opensFor_of_lt {g : Gate} {started : Nat} (h : started < g.required) :
    g.opensFor started = true ↔ 0 < started ∧ g.onSpawnFailure = .degrade := by
  have hne : started ≠ g.required := Nat.ne_of_lt h
  simp [opensFor, hne]

namespace Executor

/-- The launch that the contract asks of a call for which threads can be created as `creates` says. -/
def spawning (e : Executor) (creates : Nat → Bool) (elements : Nat) : Launch LaunchRecord :=
  (Team.created creates (e.partition elements).workers).plan

/-- Such a call before the first thread is created. -/
def launching (e : Executor) (creates : Nat → Bool) (memory : Memory) (request : Request) :
    Launching where
  todo := e.spawning creates request.elements
  course := e.opening memory (e.partition request.elements)

/-- The ranges of the deques that a failed call leaves. A rejected call has none. -/
def failedRanges (e : Executor) (elements : Nat) : Failure → List Span
  | .rejected _ => []
  | _ => (e.partition elements).ranges

/-- What a call leaves that went on with its first `started` workers. -/
structure Degraded (e : Executor) (elements started : Nat) (report : Report) (c : Course) : Prop
    where
  spawned : report.spawnedWorkers = started
  /-- There is a share for every worker that was planned. -/
  shares : report.shares.map Share.worker = List.range (e.partition elements).workers
  spared : ∀ share ∈ report.shares, started ≤ share.worker → share.tally = {}
  completed : c.completed.Perm (List.range elements)
  counted : report.completed = elements

variable {e : Executor} {memory : Memory} {request : Request} {binding : Binding}
  {turns : List Turn} {outcome : Outcome} {c : Course}

theorem withheld_of_run {p : Partition} {team : Team p.workers} {job : Job} {l : Launching}
    (hrun : Launching.run job turns { todo := team.plan, course := e.opening memory p } = some l)
    (hclosed : l.course.state.gate.isOpen = false) : l.course.Withheld memory p.ranges := by
  have hstage := Launching.Stage.initial team memory (e.gate p) p.length_ranges
  exact Launching.withheld_of_run hstage rfl (JobState.unheld_initial memory _ _)
    (.initial memory _ _) hrun hclosed

/-- A call ends: only so many turns can be taken, and any schedule can be completed. -/
theorem scheduled_ends (memory : Memory) (team : Team (e.partition request.elements).workers)
    (hbinding : Binding.ofOperands? request.kernel request.operands = .ok binding)
    (helements : 0 < request.elements) :
    ∃ bound, ∀ turns l, Launching.run (e.job request binding) turns
        { todo := team.plan, course := e.opening memory (e.partition request.elements) } =
          some l →
      turns.length ≤ bound ∧ ∃ more outcome c,
        e.scheduled team.plan (turns ++ more) memory request = some (outcome, c) := by
  let p := e.partition request.elements
  let start : Launching := { todo := team.plan, course := e.opening memory p }
  have hsteady : start.Steady (e.job request binding) team (e.gate p) :=
    .initial team memory rfl p.length_ranges
  refine ⟨start.effort, ?_⟩
  intro turns l hrun
  obtain ⟨hle, more, last, ending, hmore, hending⟩ := hsteady.ends hrun
  exact ⟨hle, more, _, last.course, scheduledFrom_of_run hbinding helements hmore hending⟩

theorem untouched_of_failed {team : Team (e.partition request.elements).workers} {cause : Failure}
    (h : e.scheduled team.plan turns memory request = some (.failed cause, c)) :
    c.Untouched memory (e.failedRanges request.elements cause) := by
  cases hbinding : Binding.ofOperands? request.kernel request.operands with
  | error reason =>
      rw [scheduled_of_error hbinding] at h
      cases h
      exact .initial memory _ _
  | ok binding =>
      rcases Nat.eq_zero_or_pos request.elements with hzero | hpos
      · rw [scheduled_of_empty hbinding hzero] at h
        cases h
      · obtain ⟨l, ending, hrun, -, rfl, houtcome⟩ := run_of_scheduledFrom hbinding hpos h
        obtain ⟨record, w, -, rfl, -, hclosed⟩ := conclude_eq_failed houtcome.symm
        exact (withheld_of_run hrun hclosed).untouched

namespace Concluded

variable {team : Team (e.partition request.elements).workers} {report : Report}

theorem eq_failed (h : e.Concluded memory request binding team outcome c)
    (hlosses : c.state.losses team.members = []) (hclosed : c.state.gate.isOpen = false) {f : Nat}
    (hrefused : team.refused = some f) :
    outcome = .failed (.threadSpawn f (e.partition request.elements).workers) := by
  have houtcome := h.outcome
  rw [conclude_eq_of_over h.unbroken.aborted h.joined.not_running, Team.record, hlosses,
    hrefused] at houtcome
  simpa [hclosed] using houtcome

theorem spared (h : e.Concluded memory request binding team outcome c) :
    c.Spared (e.partition request.elements).workers := by
  refine h.keeps _ (Course.Spared.keeps _ _) ?_
  rw [← Partition.length_ranges]
  exact .initial memory _ _

theorem degraded (h : e.Concluded memory request binding team (.returned report) c)
    (helements : 0 < request.elements) {f : Nat} (hmembers : team.members = List.range f) :
    e.Degraded request.elements f report c := by
  obtain rfl := h.report_of_returned
  have hcompleted := h.completed_of_returned helements
  exact {
    spawned := by
      change team.members.length = f
      rw [hmembers, List.length_range]
    shares := c.state.map_worker_shares.trans (congrArg List.range h.spared.size)
    spared := by
      intro share hshare hle
      rw [JobState.tally_of_mem_shares hshare]
      refine h.spared.tallies share.worker (h.joined.manned.idle share.worker ?_)
      rw [hmembers, List.mem_range]
      exact Nat.not_lt_of_le hle
    completed := hcompleted
    counted := h.counted hcompleted _ }

end Concluded

/-- A call that could start the workers below `f` and no other. It fails if there are none or if
the policy asks for it; else these workers do all the work. -/
theorem outcome_of_refusal {team : Team (e.partition request.elements).workers} {f : Nat}
    (hf : f < (e.partition request.elements).workers) (hmembers : team.members = List.range f)
    (hrefused : team.refused = some f)
    (hbinding : Binding.ofOperands? request.kernel request.operands = .ok binding)
    (helements : 0 < request.elements)
    (hscheduled : e.scheduled team.plan turns memory request = some (outcome, c)) :
    (outcome = .failed (.threadSpawn f (e.partition request.elements).workers) ↔
      e.settings.onSpawnFailure = .abort ∨ f = 0) ∧
    (e.settings.onSpawnFailure = .degrade → 0 < f →
      (∀ index < request.elements, request.unwinding index = none) →
        ∃ report, outcome = .returned report ∧ e.Degraded request.elements f report c) := by
  have h := concluded_of_scheduled hbinding helements hscheduled
  -- fewer workers than required were started, so that the policy decides
  have hopen : c.state.gate.isOpen = true ↔ 0 < f ∧ e.settings.onSpawnFailure = .degrade := by
    rw [h.isOpen_eq, hmembers, List.length_range]
    exact Gate.opensFor_of_lt hf
  refine ⟨⟨?_, ?_⟩, ?_⟩
  · intro hfailed
    obtain ⟨-, -, -, -, -, hclosed⟩ := conclude_eq_failed (h.outcome.symm.trans hfailed)
    cases hpolicy : e.settings.onSpawnFailure with
    | abort => exact .inl rfl
    | degrade =>
        refine .inr (Nat.eq_zero_of_not_pos fun hpos => ?_)
        rw [hopen.mpr ⟨hpos, hpolicy⟩] at hclosed
        cases hclosed
  · intro hpolicy
    have hclosed : c.state.gate.isOpen = false := by
      refine Bool.eq_false_of_not_eq_true fun htrue => ?_
      obtain ⟨hpos, hdegrade⟩ := hopen.mp htrue
      rcases hpolicy with habort | hzero
      · rw [hdegrade] at habort
        cases habort
      · exact absurd hzero (Nat.ne_of_gt hpos)
    obtain ⟨l, -, hrun, -, rfl, -⟩ := run_of_scheduledFrom hbinding helements hscheduled
    exact h.eq_failed ((withheld_of_run hrun hclosed).losses_eq_nil _) hclosed hrefused
  · intro hpolicy hpos hresults
    obtain ⟨report, rfl⟩ := h.returned_of_results helements (hopen.mpr ⟨hpos, hpolicy⟩) hresults
    exact ⟨report, rfl, h.degraded helements hmembers⟩

/-- Where the kernel gives all results, a launched call returns if its gate is open and fails for the
worker that was refused if it is not. -/
theorem outcome_of_results {team : Team (e.partition request.elements).workers}
    (hbinding : Binding.ofOperands? request.kernel request.operands = .ok binding)
    (helements : 0 < request.elements)
    (hresults : ∀ index < request.elements, request.unwinding index = none)
    (hscheduled : e.scheduled team.plan turns memory request = some (outcome, c)) :
    ((e.gate (e.partition request.elements)).opensFor team.members.length = true ∧
      ∃ report, outcome = .returned report) ∨
    ((e.gate (e.partition request.elements)).opensFor team.members.length = false ∧
      ∃ f, team.refused = some f ∧
        outcome = .failed (.threadSpawn f (e.partition request.elements).workers)) := by
  have h := concluded_of_scheduled hbinding helements hscheduled
  rw [← h.isOpen_eq]
  cases hopen : c.state.gate.isOpen with
  | true => exact .inl ⟨rfl, h.returned_of_results helements hopen hresults⟩
  | false =>
      refine .inr ⟨rfl, ?_⟩
      cases hrefused : team.refused with
      | none =>
          -- a team of all workers opens the gate
          rw [h.isOpen_eq, team.complete hrefused] at hopen
          simp [Gate.opensFor, gate] at hopen
      | some f =>
          obtain ⟨l, -, hrun, -, rfl, -⟩ := run_of_scheduledFrom hbinding helements hscheduled
          have hlosses := (withheld_of_run hrun hopen).losses_eq_nil team.members
          exact ⟨f, rfl, h.eq_failed hlosses hopen hrefused⟩

/-- Where the kernel gives all results a call returns, unless a thread could not be created. -/
theorem returned_or_refused {team : Team (e.partition request.elements).workers}
    (hbinding : Binding.ofOperands? request.kernel request.operands = .ok binding)
    (hresults : ∀ index < request.elements, request.unwinding index = none)
    (hscheduled : e.scheduled team.plan turns memory request = some (outcome, c)) :
    (∃ report, outcome = .returned report) ∨
      ∃ f, outcome = .failed (.threadSpawn f (e.partition request.elements).workers) := by
  rcases Nat.eq_zero_or_pos request.elements with hzero | hpos
  · rw [scheduled_of_empty hbinding hzero] at hscheduled
    cases hscheduled
    exact .inl ⟨_, rfl⟩
  · rcases outcome_of_results hbinding hpos hresults hscheduled with
      ⟨-, hreturned⟩ | ⟨-, f, -, hfailed⟩
    · exact .inl hreturned
    · exact .inr ⟨f, hfailed⟩

/-- Two calls by the same launch have the same outcome, up to their reports, in whatever orders the
turns are taken. -/
theorem outcomes_agree {team : Team (e.partition request.elements).workers} {turns' : List Turn}
    {outcome' : Outcome} {c' : Course}
    (hbinding : Binding.ofOperands? request.kernel request.operands = .ok binding)
    (hresults : ∀ index < request.elements, request.unwinding index = none)
    (hscheduled : e.scheduled team.plan turns memory request = some (outcome, c))
    (hscheduled' : e.scheduled team.plan turns' memory request = some (outcome', c')) :
    (∃ report report', outcome = .returned report ∧ outcome' = .returned report') ∨
      ∃ cause, outcome = .failed cause ∧ outcome' = .failed cause := by
  rcases Nat.eq_zero_or_pos request.elements with hzero | hpos
  · rw [scheduled_of_empty hbinding hzero] at hscheduled hscheduled'
    cases hscheduled
    cases hscheduled'
    exact .inl ⟨_, _, rfl, rfl⟩
  · rcases outcome_of_results hbinding hpos hresults hscheduled with
      ⟨hopen, report, hreturned⟩ | ⟨hclosed, f, hrefused, hfailed⟩
    · rcases outcome_of_results hbinding hpos hresults hscheduled' with
        ⟨-, report', hreturned'⟩ | ⟨hclosed, -⟩
      · exact .inl ⟨report, report', hreturned, hreturned'⟩
      · cases hopen.symm.trans hclosed
    · rcases outcome_of_results hbinding hpos hresults hscheduled' with
        ⟨hopen, -⟩ | ⟨-, f', hrefused', hfailed'⟩
      · cases hclosed.symm.trans hopen
      · obtain rfl := Option.some.inj (hrefused.symm.trans hrefused')
        exact .inr ⟨_, hfailed, hfailed'⟩

/-- Unless the gate is open nothing happens, and a call that fails has left everything as it was.
When the thread of worker `f` cannot be created the call still ends. It fails if that was the first
worker or the policy asks for it; else, if the kernel gives all results, it returns with all of them
done by the workers below `f`. -/
theorem failed_call_untouched (e : Executor) (memory : Memory) (request : Request)
    (creates : Nat → Bool) :
    (∀ binding turns l,
      (e.launching creates memory request).run (e.job request binding) turns = some l →
      l.course.state.gate.isOpen = false →
        l.course.Untouched memory (e.partition request.elements).ranges) ∧
    (∀ turns cause c, e.scheduled (e.spawning creates request.elements) turns memory request =
        some (.failed cause, c) → c.Untouched memory (e.failedRanges request.elements cause)) ∧
    ∀ binding f, Binding.ofOperands? request.kernel request.operands = .ok binding →
      0 < request.elements → f < (e.partition request.elements).workers →
      (∀ w < f, creates w = true) → creates f = false →
      (∃ bound, ∀ turns l,
        (e.launching creates memory request).run (e.job request binding) turns = some l →
        turns.length ≤ bound ∧ ∃ more outcome c,
          e.scheduled (e.spawning creates request.elements) (turns ++ more) memory request =
            some (outcome, c)) ∧
      ∀ turns outcome c,
        e.scheduled (e.spawning creates request.elements) turns memory request =
          some (outcome, c) →
        (outcome = .failed (.threadSpawn f (e.partition request.elements).workers) ↔
          e.settings.onSpawnFailure = .abort ∨ f = 0) ∧
        (e.settings.onSpawnFailure = .degrade → 0 < f →
          (∀ index < request.elements, request.unwinding index = none) →
            ∃ report, outcome = .returned report ∧ e.Degraded request.elements f report c) := by
  refine ⟨?_, ?_, ?_⟩
  · intro binding turns l hrun hclosed
    exact (withheld_of_run hrun hclosed).untouched
  · intro turns cause c hfailed
    exact untouched_of_failed hfailed
  · intro binding f hbinding helements hf hcreates hrefuses
    obtain ⟨hmembers, hrefused⟩ := Team.created_eq hf hcreates hrefuses
    refine ⟨scheduled_ends memory _ hbinding helements, ?_⟩
    intro turns outcome c hscheduled
    exact outcome_of_refusal hf hmembers hrefused hbinding helements hscheduled

/-- One of two threads cannot be created. The call fails, or a single worker does all three sums,
depending on the policy. -/
theorem failed_call_untouched_or_degraded :
    (∃ turns c, twoWorkers.scheduled (twoWorkers.spawning (· < 1) 3) turns .reversedSum
        (.reversedSum fun _ => none) = some (.failed (.threadSpawn 1 2), c) ∧
      c.state.calls = #[] ∧ c.state.memory = .reversedSum) ∧
    ∃ turns report c,
      scheduled { twoWorkers with settings := { workers := some 2, onSpawnFailure := .degrade } }
        (twoWorkers.spawning (· < 1) 3) turns .reversedSum (.reversedSum fun _ => none) =
          some (.returned report, c) ∧
      report.spawnedWorkers = 1 ∧ report.completed = 3 := by
  let request := Request.reversedSum fun _ => none
  let lenient : Executor :=
    { twoWorkers with settings := { workers := some 2, onSpawnFailure := .degrade } }
  constructor
  · have h := failed_call_untouched twoWorkers .reversedSum request (· < 1)
    obtain ⟨⟨bound, hends⟩, houtcome⟩ :=
      h.2.2 .reversedSum 1 rfl (by decide) (by decide) (by decide) (by decide)
    obtain ⟨-, turns, outcome, c, hscheduled⟩ := hends [] _ rfl
    obtain rfl := (houtcome turns outcome c hscheduled).1.mpr (.inl rfl)
    have huntouched := h.2.1 turns _ c hscheduled
    rw [show (twoWorkers.partition request.elements).workers = 2 by decide] at hscheduled
    exact ⟨turns, c, hscheduled, huntouched.calls, huntouched.memory⟩
  · have h := failed_call_untouched lenient .reversedSum request (· < 1)
    obtain ⟨⟨bound, hends⟩, houtcome⟩ :=
      h.2.2 .reversedSum 1 rfl (by decide) (by decide) (by decide) (by decide)
    obtain ⟨-, turns, outcome, c, hscheduled⟩ := hends [] _ rfl
    obtain ⟨report, rfl, hdegraded⟩ :=
      (houtcome turns outcome c hscheduled).2 rfl (by decide) fun _ _ => rfl
    exact ⟨turns, report, c, hscheduled, hdegraded.spawned, hdegraded.counted⟩

end Executor

end Elementwise
