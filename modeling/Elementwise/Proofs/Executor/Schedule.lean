import Elementwise.Proofs.Executor.Call
import Elementwise.Proofs.Job.ExactlyOnce
import Elementwise.Proofs.Launch.Turns

/-!
Calls under a schedule. The launcher may be any that keeps its contract, and it and the workers take
turns in any order; the outcome is drawn from what is left when the launch is over.
-/

namespace Elementwise

namespace Executor

/-- A call by the given launch in which the launcher and the workers take the given turns, after
something else has happened to the job. There is no result if one of the turns cannot be taken, or if
the launch is not over after them. -/
def scheduledFrom (e : Executor) (prepare : JobState → JobState) (plan : Launch LaunchRecord)
    (turns : List Turn) (memory : Memory) (request : Request) : Option (Outcome × Course) :=
  e.call memory request fun job _ opening =>
    (Launching.run job turns
        { todo := plan, course := { opening with state := prepare opening.state } }).bind
      fun l => l.todo.ending?.map fun ending => (ending, l.course)

/-- Such a call of which the launch is the beginning. -/
def scheduled (e : Executor) (plan : Launch LaunchRecord) (turns : List Turn) (memory : Memory)
    (request : Request) : Option (Outcome × Course) :=
  e.scheduledFrom id plan turns memory request

/-- What a call over some index leaves behind under a schedule: the launch is over, the outcome is
drawn from its losses, and what always holds of a job holds of this one. -/
structure Concluded (e : Executor) (memory : Memory) (request : Request) (binding : Binding)
    (team : Team (e.partition request.elements).workers) (outcome : Outcome) (c : Course) :
    Prop where
  joined : c.Joined team (e.gate (e.partition request.elements))
  outcome : outcome =
    e.conclude (e.partition request.elements) (.ok (team.record c.state)) c.state
  keeps : ∀ property : Course → Prop, (e.job request binding).Keeps property →
    property (e.opening memory (e.partition request.elements)) → property c

variable {e : Executor} {memory : Memory} {request : Request} {binding : Binding}
  {turns : List Turn} {outcome : Outcome} {c : Course}

theorem scheduled_of_empty {plan : Launch LaunchRecord}
    (hbinding : Binding.ofOperands? request.kernel request.operands = .ok binding)
    (helements : request.elements = 0) :
    e.scheduled plan turns memory request =
      some (.returned (.empty e.requestedWorkers), { state := (Session.idle memory).state })  := by
  rw [scheduled, scheduledFrom, call_of_empty hbinding helements]

theorem scheduled_of_error {plan : Launch LaunchRecord} {reason : Rejection}
    (hbinding : Binding.ofOperands? request.kernel request.operands = .error reason) :
    e.scheduled plan turns memory request =
      some (.failed (.rejected reason), { state := (Session.idle memory).state })  := by
  rw [scheduled, scheduledFrom, call_of_error hbinding]

theorem joined_of_run {p : Partition} {team : Team p.workers} {job : Job} {l : Launching}
    {ending : Except Payload LaunchRecord}
    (hrun : Launching.run job turns { todo := team.plan, course := e.opening memory p } = some l)
    (hending : l.todo.ending? = some ending) :
    l.course.Joined team (e.gate p) ∧ ending = .ok (team.record l.course.state) := by
  have hstage := Launching.Stage.initial team memory (e.gate p) p.length_ranges
  exact (hstage.run rfl (JobState.unheld_initial memory _ _) hrun).joined hending

theorem run_of_scheduledFrom {prepare : JobState → JobState} {plan : Launch LaunchRecord}
    (hbinding : Binding.ofOperands? request.kernel request.operands = .ok binding)
    (helements : 0 < request.elements)
    (h : e.scheduledFrom prepare plan turns memory request = some (outcome, c)) :
    ∃ l ending, Launching.run (e.job request binding) turns
        { todo := plan,
          course := { state := prepare (e.opening memory (e.partition request.elements)).state } } =
      some l ∧ l.todo.ending? = some ending ∧ l.course = c ∧
      outcome = e.conclude (e.partition request.elements) ending c.state := by
  rw [scheduledFrom, call_of_pos hbinding helements] at h
  obtain ⟨⟨ending, course⟩, hlaunch, hend⟩ := Option.map_eq_some_iff.mp h
  obtain ⟨l, hrun, hover⟩ := Option.bind_eq_some_iff.mp hlaunch
  obtain ⟨_, hending, hleft⟩ := Option.map_eq_some_iff.mp hover
  cases hleft
  cases hend
  exact ⟨l, ending, hrun, hending, rfl, rfl⟩

theorem concluded_of_scheduled {team : Team (e.partition request.elements).workers}
    (hbinding : Binding.ofOperands? request.kernel request.operands = .ok binding)
    (helements : 0 < request.elements)
    (h : e.scheduled team.plan turns memory request = some (outcome, c)) :
    e.Concluded memory request binding team outcome c := by
  obtain ⟨l, ending, hrun, hending, rfl, houtcome⟩ := run_of_scheduledFrom hbinding helements h
  obtain ⟨hjoined, rfl⟩ := joined_of_run hrun hending
  exact ⟨hjoined, houtcome, fun property hkeeps hinitial =>
    Launching.keeps_run hkeeps hinitial hrun⟩

theorem scheduledFrom_of_run {prepare : JobState → JobState} {plan : Launch LaunchRecord}
    {l : Launching} {ending : Except Payload LaunchRecord}
    (hbinding : Binding.ofOperands? request.kernel request.operands = .ok binding)
    (helements : 0 < request.elements)
    (hrun : Launching.run (e.job request binding) turns
      { todo := plan,
        course := { state := prepare (e.opening memory (e.partition request.elements)).state } } =
      some l) (hending : l.todo.ending? = some ending) :
    e.scheduledFrom prepare plan turns memory request =
      some (e.conclude (e.partition request.elements) ending l.course.state, l.course) := by
  rw [scheduledFrom, call_of_pos hbinding helements]
  change ((Launching.run (e.job request binding) turns
    { todo := plan,
      course := { state := prepare (e.opening memory (e.partition request.elements)).state } }).bind
      _).map _ = _
  rw [hrun, Option.bind_some, hending]
  rfl

/-- A launch of all workers without a loss makes a call return if the counters are right. -/
theorem scheduled_eq_returned (e : Executor) (memory : Memory) (request : Request)
    (team : Team (e.partition request.elements).workers) {l : Launching}
    (hbinding : Binding.ofOperands? request.kernel request.operands = .ok binding)
    (helements : 0 < request.elements)
    (hrun : Launching.run (e.job request binding) turns
      { todo := team.plan, course := e.opening memory (e.partition request.elements) } = some l)
    (hending : l.todo.ending? = some (.ok ⟨team.members.length, none, []⟩))
    (haborted : l.course.state.aborted = none)
    (hcompleted : (e.report (e.partition request.elements) team.members.length
      l.course.state).completed = (e.partition request.elements).elements) :
    e.scheduled team.plan turns memory request = some (.returned
      (e.report (e.partition request.elements) team.members.length l.course.state), l.course) := by
  have hjoined := (joined_of_run hrun hending).1
  rw [scheduled, scheduledFrom_of_run hbinding helements hrun hending,
    conclude_eq_of_over haborted hjoined.not_running]
  simp only [verify_of_eq hcompleted]

end Executor

theorem Gate.pos_of_opensFor {g : Gate} {started : Nat} (hrequired : 0 < g.required)
    (h : g.opensFor started = true) : 0 < started := by
  simp only [opensFor, Bool.or_eq_true, beq_iff_eq, Bool.and_eq_true, decide_eq_true_eq] at h
  omega

namespace Executor.Concluded

variable {e : Executor} {memory : Memory} {request : Request} {binding : Binding}
  {team : Team (e.partition request.elements).workers} {outcome : Outcome} {c : Course}

theorem balanced (h : e.Concluded memory request binding team outcome c) :
    c.Balanced (List.range request.elements) :=
  h.keeps _ (Course.Balanced.keeps _ _) (e.balanced_opening memory _)

theorem isOpen_eq (h : e.Concluded memory request binding team outcome c) :
    c.state.gate.isOpen =
      (e.gate (e.partition request.elements)).opensFor team.members.length := by
  rw [h.joined.gate, Gate.isOpen_settle]

theorem exists_member (h : e.Concluded memory request binding team outcome c)
    (helements : 0 < request.elements) (hopen : c.state.gate.isOpen = true) :
    ∃ w, w ∈ team.members := by
  rw [h.isOpen_eq] at hopen
  exact List.exists_mem_of_length_pos
    (Gate.pos_of_opensFor (Partition.workers_pos helements) hopen)

theorem of_returned {report : Report}
    (h : e.Concluded memory request binding team (.returned report) c) :
    c.state.losses team.members = [] ∧ c.state.gate.isOpen = true := by
  obtain ⟨_, ⟨⟩, hlosses, hgate, -⟩ := conclude_eq_returned h.outcome.symm
  refine ⟨hlosses, hgate.elim (fun hrefused => ?_) id⟩
  have hall : team.members.length = (e.partition request.elements).workers :=
    team.complete hrefused
  rw [h.isOpen_eq, hall]
  simp [Gate.opensFor, gate]

theorem completed_perm (h : e.Concluded memory request binding team outcome c)
    (helements : 0 < request.elements) (hlosses : c.state.losses team.members = [])
    (hopen : c.state.gate.isOpen = true) : c.completed.Perm (List.range request.elements) := by
  obtain ⟨w, hw⟩ := h.exists_member helements hopen
  rcases h.joined.finished_or_lost hw with hfinished | ⟨cause, hlost⟩
  · have hcovered := (h.balanced.covered h.joined.manned hopen h.joined.not_running hfinished).1
    rwa [h.joined.unwound_eq_nil hlosses, List.append_nil] at hcovered
  · rw [hlosses] at hlost
    exact absurd hlost List.not_mem_nil

theorem completed_of_returned {report : Report}
    (h : e.Concluded memory request binding team (.returned report) c)
    (helements : 0 < request.elements) : c.completed.Perm (List.range request.elements) := by
  obtain ⟨hlosses, hopen⟩ := h.of_returned
  exact h.completed_perm helements hlosses hopen

theorem report_of_returned {report : Report}
    (h : e.Concluded memory request binding team (.returned report) c) :
    report = e.report (e.partition request.elements) team.members.length c.state := by
  obtain ⟨_, ⟨⟩, -, -, hverify⟩ := conclude_eq_returned h.outcome.symm
  exact verify_eq_returned hverify

theorem counted (h : e.Concluded memory request binding team outcome c)
    (hcompleted : c.completed.Perm (List.range request.elements)) (spawned : Nat) :
    (e.report (e.partition request.elements) spawned c.state).completed = request.elements := by
  rw [completed_report, h.balanced.counted, hcompleted.length_eq, List.length_range]

end Executor.Concluded

end Elementwise
