import Elementwise.Proofs.Job.Gathering
import Elementwise.Proofs.Launch.Turns

/-!
Launches come to an end. Only so many turns can be taken, and as long as the launcher has something
left to do somebody can take one, so that every launch can be finished from wherever it has got to.
-/

namespace Elementwise

/-- The number of steps of a launch that loses nobody. -/
def Launch.length {α : Type} : Launch α → Nat
  | result _ | unwind _ => 0
  | create _ rest | refuse _ rest | settle _ rest => rest.length + 1
  | join _ rest => (rest none).length + 1

theorem Launch.length_joining (spawned : Nat) (refused : Option Nat) (rest : List Nat)
    (payloads : List (Nat × Payload)) :
    (joining spawned refused rest payloads).length = rest.length := by
  induction rest generalizing payloads with
  | nil => rfl
  | cons w rest ih => exact congrArg Nat.succ (ih _)

namespace Launching

/-- A bound for the turns that are still to be taken. A step of the launcher counts for more than
the run of a worker that it may start. -/
def effort (l : Launching) : Nat :=
  l.todo.length * (2 * l.course.state.workers.size + 5) + l.course.state.effort

/-- The launch of a team that nothing holds up. -/
structure Steady {workers : Nat} (job : Job) (team : Team workers) (gate : Gate) (l : Launching) :
    Prop where
  stage : l.Stage team gate
  pending : gate.state = .pending
  lasting : l.course.state.Lasting job
  fit : l.course.state.Fit

namespace Steady

variable {job : Job} {workers : Nat} {team : Team workers} {gate : Gate} {l l' : Launching}

theorem initial (team : Team workers) (memory : Memory) (hpending : gate.state = .pending)
    {spans : List Span} (hspans : spans.length = workers) :
    Steady job team gate
      { todo := team.plan, course := { state := .initial memory gate spans } } where
  stage := .initial team memory gate hspans
  pending := hpending
  lasting := (JobState.Unbroken.initial memory gate spans).lasting job
  fit := JobState.fit_initial memory gate spans

theorem turn (h : l.Steady job team gate) {turn : Turn} (hturn : l.turn job turn = some l') :
    l'.Steady job team gate where
  stage := h.stage.turn h.pending h.lasting.unheld hturn
  pending := h.pending
  lasting := keeps_turn (JobState.Lasting.keeps job) h.lasting hturn
  fit := (keeps_turn (Job.keeps_fit job) ⟨h.lasting.unheld, h.fit⟩ hturn).2

theorem run (h : l.Steady job team gate) {turns : List Turn} (hrun : l.run job turns = some l') :
    l'.Steady job team gate := by
  refine run_induction h ?_ hrun
  intro l l' turn h hturn
  exact h.turn hturn

/-- No thread is created for a worker that has begun. -/
theorem idle_of_create (h : l.Steady job team gate) {w : Nat} {rest : Launch LaunchRecord}
    (htodo : l.todo = .create w rest) : l.course.state.phase w = .idle := by
  cases h.stage with
  | gathering made others refused hmembers hgathering _ _ _ _ _ _ hidle =>
      rw [htodo] at hgathering
      cases others with
      | nil => cases refused <;> cases hgathering
      | cons v others =>
          cases hgathering
          have hnodup := team.nodup
          rw [← hmembers, List.nodup_append] at hnodup
          exact hidle w fun hmem => hnodup.2.2 w hmem w List.mem_cons_self rfl
  | joining done others _ hjoining =>
      rw [htodo] at hjoining
      cases others <;> cases hjoining

/-- What is left of the launch is as long whether the worker that is joined was lost or not. -/
theorem length_rest (h : l.Steady job team gate) {w : Nat}
    {rest : Option Payload → Launch LaunchRecord} (htodo : l.todo = .join w rest)
    (payload : Option Payload) : (rest payload).length = (rest none).length := by
  cases h.stage with
  | gathering made others refused _ hgathering =>
      rw [htodo] at hgathering
      cases others <;> cases refused <;> cases hgathering
  | joining done others _ hjoining =>
      rw [htodo] at hjoining
      cases others with
      | nil => cases hjoining
      | cons v others =>
          cases hjoining
          rw [Launch.length_joining, Launch.length_joining]

theorem effort_lt (h : l.Steady job team gate) {turn : Turn}
    (hturn : l.turn job turn = some l') : l'.effort < l.effort := by
  cases turn with
  | worker w =>
      obtain ⟨course, hoccur, rfl⟩ := Option.map_eq_some_iff.mp hturn
      obtain ⟨s', hstep, rfl⟩ := Option.map_eq_some_iff.mp hoccur
      have hmove := Job.move_of_step h.lasting.unheld hstep
      simp only [effort, Course.state_note, hmove.size_workers]
      exact Nat.add_lt_add_left (hmove.effort_lt h.lasting) _
  | launcher =>
      rcases proceed_cases hturn with ⟨w, htodo, hrunning, hcourse⟩ | ⟨w, htodo, hcourse⟩ |
        ⟨started, htodo, hcourse⟩ | ⟨w, rest, htodo, -, hrest, hcourse⟩
      · have hle := JobState.effort_start_le hrunning
        simp only [effort, htodo, Launch.length, hcourse, JobState.size_workers_start,
          Nat.succ_mul]
        omega
      · simp only [effort, htodo, Launch.length, hcourse, Nat.succ_mul]
        omega
      · have hsame : (l.course.state.settle started).effort = l.course.state.effort := rfl
        have hsize : (l.course.state.settle started).workers.size =
            l.course.state.workers.size := rfl
        simp only [effort, htodo, Launch.length, hcourse, hsame, hsize, Nat.succ_mul]
        omega
      · have hlength := h.length_rest htodo (l.course.state.phase w).payload?
        simp only [effort, htodo, Launch.length, hcourse, hrest, hlength, Nat.succ_mul]
        omega

theorem length_add_effort_le (h : l.Steady job team gate) {turns : List Turn}
    (hrun : l.run job turns = some l') : turns.length + l'.effort ≤ l.effort := by
  induction turns generalizing l with
  | nil =>
      cases hrun
      exact Nat.le_of_eq (Nat.zero_add _)
  | cons turn rest ih =>
      obtain ⟨middle, hturn, hrest⟩ := Option.bind_eq_some_iff.mp hrun
      have hstep := h.effort_lt hturn
      have hle := ih (h.turn hturn) hrest
      rw [List.length_cons]
      omega

theorem exists_workerTurn (h : l.Steady job team gate)
    (hsettled : l.course.state.gate.wait?.isSome = true) {w : Nat}
    (hbegun : l.course.state.phase w ≠ .idle)
    (hover : ¬ (l.course.state.phase w).isOver = true) :
    ∃ l', l.turn job (.worker w) = some l' := by
  have hrunning : (l.course.state.phase w).isRunning = true := by
    by_contra hended
    exact hover (Phase.isOver_of_not_running hbegun (Bool.eq_false_of_not_eq_true hended))
  have hready := JobState.isReady_of_isRunning h.lasting h.fit hsettled hrunning
  rw [Launching.turn, Job.occur, Job.step_eq_of_isReady job hready]
  exact ⟨_, rfl⟩

/-- As long as the launcher has something left to do, somebody can take a turn. -/
theorem exists_turn (h : l.Steady job team gate) (hending : l.todo.ending? = none) :
    ∃ turn l', l.turn job turn = some l' := by
  cases h.stage with
  | gathering made rest refused hmembers htodo =>
      refine ⟨.launcher, ?_⟩
      cases rest with
      | cons w rest =>
          have hidle := h.idle_of_create htodo
          simp only [Launching.turn, proceed, htodo, List.foldr_cons, Job.occur, hidle]
          exact ⟨_, rfl⟩
      | nil =>
          cases refused with
          | cons w refused =>
              simp only [Launching.turn, proceed, htodo, List.foldr_nil, List.foldr_cons]
              exact ⟨_, rfl⟩
          | nil =>
              simp only [Launching.turn, proceed, htodo, List.foldr_nil, Launch.settling]
              exact ⟨_, rfl⟩
  | joining done rest hmembers htodo hdone hbegun hmourned hmanned hgate =>
      cases rest with
      | nil =>
          rw [htodo] at hending
          cases hending
      | cons w rest =>
          by_cases hover : (l.course.state.phase w).isOver = true
          · refine ⟨.launcher, ?_⟩
            simp only [Launching.turn, proceed, htodo, Launch.joining, hover, if_true]
            exact ⟨_, rfl⟩
          · -- the launcher waits for this worker, and the worker can go on
            refine ⟨.worker w, h.exists_workerTurn ?_ (hbegun w List.mem_cons_self) hover⟩
            rw [hgate, Gate.wait?_settle]
            rfl

theorem exists_run (h : l.Steady job team gate) :
    ∃ turns l' ending, l.run job turns = some l' ∧ l'.todo.ending? = some ending := by
  induction heffort : l.effort using Nat.strong_induction_on generalizing l with
  | _ effort ih =>
      cases hending : l.todo.ending? with
      | some ending => exact ⟨[], l, ending, rfl, hending⟩
      | none =>
          obtain ⟨turn, next, hturn⟩ := h.exists_turn hending
          have hlt := h.effort_lt hturn
          obtain ⟨turns, l', ending, hrun, hdone⟩ :=
            ih next.effort (heffort ▸ hlt) (h.turn hturn) rfl
          refine ⟨turn :: turns, l', ending, ?_, hdone⟩
          rw [Launching.run, hturn]
          exact hrun

/-- A launch comes to an end: only so many turns can be taken, and more of them complete it. -/
theorem ends (h : l.Steady job team gate) {turns : List Turn} (hrun : l.run job turns = some l') :
    turns.length ≤ l.effort ∧ ∃ more last ending,
      l.run job (turns ++ more) = some last ∧ last.todo.ending? = some ending := by
  have hle := h.length_add_effort_le hrun
  obtain ⟨more, last, ending, hmore, hending⟩ := (h.run hrun).exists_run
  refine ⟨by omega, more, last, ending, ?_, hending⟩
  rw [run_append, hrun]
  exact hmore

/-- What holds on behind an open gate as long as nobody begins again also does in a launch that
opens its gate. -/
theorem keepsOnce_turn (h : l.Steady job team gate) {property : Course → Prop}
    (hkeeps : job.KeepsOnce property) (hopens : gate.opensFor team.members.length = true)
    (hproperty : property l.course) {turn : Turn} (hturn : l.turn job turn = some l') :
    property l'.course := by
  cases turn with
  | launcher =>
      rcases proceed_cases hturn with ⟨w, htodo, -, hcourse⟩ | ⟨w, -, hcourse⟩ |
        ⟨started, -, hcourse⟩ | ⟨w, rest, -, -, -, hcourse⟩
      · rw [hcourse]
        exact hkeeps.start _ w hproperty (h.idle_of_create htodo)
      · rwa [hcourse]
      · rw [hcourse]
        exact hkeeps.gate _ _ hproperty
      · rwa [hcourse]
  | worker w =>
      obtain ⟨course, hoccur, rfl⟩ := Option.map_eq_some_iff.mp hturn
      obtain ⟨s', hstep, rfl⟩ := Option.map_eq_some_iff.mp hoccur
      have hopen : l.course.state.gate.isOpen = true := by
        cases h.stage with
        | gathering made rest refused _ _ hgate _ _ hwaiting =>
            rw [hwaiting.step_eq_none (hgate ▸ h.pending) job w] at hstep
            cases hstep
        | joining done rest _ _ _ _ _ _ hgate =>
            rw [hgate, Gate.isOpen_settle]
            exact hopens
      exact hkeeps.move _ w _ s' hproperty hopen (Job.move_of_step h.lasting.unheld hstep)

theorem keepsOnce_run (h : l.Steady job team gate) {property : Course → Prop}
    (hkeeps : job.KeepsOnce property) (hopens : gate.opensFor team.members.length = true)
    (hproperty : property l.course) {turns : List Turn} (hrun : l.run job turns = some l') :
    property l'.course := by
  refine (run_induction (motive := fun l => l.Steady job team gate ∧ property l.course)
    ⟨h, hproperty⟩ ?_ hrun).2
  rintro l l' turn ⟨h, hproperty⟩ hturn
  exact ⟨h.turn hturn, h.keepsOnce_turn hkeeps hopens hproperty hturn⟩

end Steady

end Launching

end Elementwise
