import Elementwise.Proofs.Executor.Sequential
import Elementwise.Proofs.Job.Gathering
import Elementwise.Proofs.Job.Solo
import Elementwise.Proofs.Launch.Crew

/-!
The executor's own calls on threads. It starts its workers one after another and lets each run to
its end as it is joined, which is one of the schedules. So what holds under every schedule also
holds of the calls that the executor makes.
-/

namespace Elementwise

namespace Launching

variable {job : Job}

theorem run_of_follow {l : Launching} {w steps : Nat} {c : Course}
    (h : job.follow (List.replicate steps (.step w)) l.course = some c) :
    l.run job (List.replicate steps (.worker w)) = some { l with course := c } := by
  induction steps generalizing l with
  | zero =>
      cases h
      rfl
  | succ steps ih =>
      obtain ⟨middle, hoccur, hrest⟩ := Option.bind_eq_some_iff.mp h
      rw [List.replicate_succ, run, turn, hoccur]
      exact ih (l := { l with course := middle }) hrest

end Launching

/-- If the names of its threads are in order, a launcher of threads launches a team: those in front of
the first worker that the host refuses. -/
theorem Launcher.plan_eq {launcher : Launcher} {library : ThreadLibrary} {namePrefix : String}
    {stackSize : Option Nat} (hthreads : launcher = .threads library namePrefix stackSize)
    {workers : Nat} (hnames : launcher.namingFault? workers = none) (host : Host) :
    launcher.plan host workers = (Team.created (host.creates stackSize) workers).plan := by
  subst hthreads
  refine library.launch_eq_contract fun w hw => ?_
  have hpos : workers ≠ 0 := Nat.ne_zero_of_lt (List.mem_range.mp hw)
  simp only [namingFault?, hpos, if_false] at hnames
  rw [ThreadBuilder.nulFault?_threadName] at hnames ⊢
  exact hnames

/-- If the name of the first thread has a NUL, the launch unwinds before anything happens. -/
theorem Launcher.plan_eq_unwind {launcher : Launcher} {workers : Nat} {cause : Payload}
    (hname : launcher.namingFault? workers = some cause) (host : Host) :
    launcher.plan host workers = .unwind cause := by
  cases launcher with
  | scripted script => cases hname
  | threads library namePrefix stackSize =>
      cases workers with
      | zero => cases hname
      | succ workers =>
          rw [plan, List.range_succ_eq_map]
          exact library.launch_eq_unwind hname

namespace Executor

/-- Creating threads takes a turn of the launcher for each. -/
theorem exists_turns_of_creates (job : Job) (members : List Nat) (rest : Launch LaunchRecord)
    (c : Course) (s : Session) (hs : s.state = c.state) (hnodup : members.Nodup)
    (hidle : ∀ w ∈ members, c.state.phase w = .idle)
    (hsize : ∀ w ∈ members, w < c.state.workers.size) :
    ∃ turns c', Launching.run job turns { todo := members.foldr .create rest, course := c } =
        some { todo := rest, course := c' } ∧
      ((crew job []).beginAll members s).state = c'.state ∧
      (∀ w ∈ members, c'.state.phase w ≠ .idle) ∧
      ∀ v, v ∉ members → c'.state.phase v = c.state.phase v := by
  induction members generalizing c s with
  | nil => exact ⟨[], c, rfl, hs, fun w hw => absurd hw List.not_mem_nil, fun v _ => rfl⟩
  | cons w members ih =>
      obtain ⟨hw, hnodup⟩ := List.nodup_cons.mp hnodup
      have hne {v : Nat} (hv : v ∈ members) : v ≠ w := fun heq => hw (heq ▸ hv)
      obtain ⟨turns, c', hrun, hs', hbegun, hothers⟩ :=
        ih { c with state := c.state.start w } { s with state := s.state.start w }
          (congrArg (fun state => state.start w) hs) hnodup
          (fun v hv => (JobState.phase_start_of_ne (hne hv)).trans
            (hidle v (List.mem_cons_of_mem w hv)))
          (fun v hv => by
            rw [JobState.size_workers_start]
            exact hsize v (List.mem_cons_of_mem w hv))
      refine ⟨.launcher :: turns, c', ?_, hs', ?_, ?_⟩
      · have hturn : Launching.turn job
            { todo := (w :: members).foldr .create rest, course := c } .launcher =
              some { todo := members.foldr .create rest,
                     course := { c with state := c.state.start w } } := by
          simp [Launching.turn, Launching.proceed, Job.occur, hidle w List.mem_cons_self,
            Phase.isRunning]
        rw [Launching.run, hturn]
        exact hrun
      · intro v hv
        rcases List.mem_cons.mp hv with rfl | hv
        · rw [hothers v hw, JobState.phase_start_self (hsize v List.mem_cons_self)]
          exact Phase.noConfusion
        · exact hbegun v hv
      · intro v hv
        rw [hothers v fun hmem => hv (List.mem_cons_of_mem w hmem)]
        exact JobState.phase_start_of_ne fun heq => hv (heq ▸ List.mem_cons_self)

/-- Joining workers behind a settled gate takes for each of them its turns until its end, and one of
the launcher. -/
theorem exists_turns_of_joins (job : Job) (spawned : Nat) (refused : Option Nat)
    (members : List Nat) (payloads : List (Nat × Payload)) (c : Course) (s : Session)
    (hs : s.state = c.state) (hunbroken : c.state.Unbroken) (hfit : c.state.Fit)
    (hsettled : c.state.gate.wait?.isSome = true)
    (hbegun : ∀ w ∈ members, c.state.phase w ≠ .idle) :
    ∃ turns l, Launching.run job turns
        { todo := .joining spawned refused members payloads, course := c } = some l ∧
      l.todo.ending? =
        some ((crew job []).run (.joining spawned refused members payloads) s).1 ∧
      l.course.state =
        ((crew job []).run (.joining spawned refused members payloads) s).2.state := by
  induction members generalizing payloads c s with
  | nil => exact ⟨[], _, rfl, rfl, hs.symm⟩
  | cons w members ih =>
      obtain ⟨state, results⟩ := s
      obtain rfl : state = c.state := hs
      -- the worker that is joined next runs to its end
      obtain ⟨steps, ended, hfollow, hstate⟩ :=
        Session.exists_follow_of_finish job w c results hunbroken
      let session := Session.finish job [] w ⟨c.state, results⟩
      have hover : (ended.state.phase w).isOver = true := by
        refine Phase.isOver_of_not_running ?_ ?_
        · exact ((Job.keeps_begun job w).follow
            ⟨hunbroken.unheld, hbegun w List.mem_cons_self⟩ hfollow).2
        · rw [hstate]
          exact Session.not_running_of_finish job w hunbroken hfit hsettled
      have hpayload : (session.state.phase w).payload? = (ended.state.phase w).payload? := by
        rw [hstate]
      obtain ⟨turns, l, hrun, hending, hl⟩ :=
        ih (payloads ++ ((ended.state.phase w).payload?.map fun cause => (w, cause)).toList) ended
          session hstate.symm ((JobState.Unbroken.keeps job).follow hunbroken hfollow)
          (Job.fit_follow hunbroken.unheld hfit hfollow)
          (by rwa [Job.gate_follow hunbroken.unheld hfollow (by simp)])
          fun v hv => ((Job.keeps_begun job v).follow
            ⟨hunbroken.unheld, hbegun v (List.mem_cons_of_mem w hv)⟩ hfollow).2
      have hcrew : (crew job []).run (.joining spawned refused (w :: members) payloads)
          ⟨c.state, results⟩ = (crew job []).run (.joining spawned refused members
            (payloads ++ ((ended.state.phase w).payload?.map fun cause => (w, cause)).toList))
              session := by
        rw [← hpayload]
        rfl
      have hturn : Launching.turn job
          { todo := .joining spawned refused (w :: members) payloads, course := ended } .launcher =
            some { todo := .joining spawned refused members
                     (payloads ++ ((ended.state.phase w).payload?.map fun cause => (w, cause)).toList),
                   course := ended } := by
        simp [Launching.turn, Launching.proceed, Launch.joining, hover]
      rw [hcrew]
      refine ⟨List.replicate steps (.worker w) ++ .launcher :: turns, l, ?_, hending, hl⟩
      rw [Launching.run_append, Launching.run_of_follow hfollow, Option.bind_some, Launching.run,
        hturn, Option.bind_some, hrun]

/-- The executor's launch of a team is one of the schedules. -/
theorem exists_turns_of_launch (job : Job) {workers : Nat} (team : Team workers) (c : Course)
    (hunbroken : c.state.Unbroken) (hfit : c.state.Fit) (hidle : ∀ w, c.state.phase w = .idle)
    (hsize : c.state.workers.size = workers) :
    ∃ turns l, Launching.run job turns { todo := team.plan, course := c } = some l ∧
      l.todo.ending? = some ((crew job []).run team.plan { state := c.state }).1 ∧
      l.course.state = ((crew job []).run team.plan { state := c.state }).2.state := by
  let started := team.members.length
  let joins : Launch LaunchRecord := .joining started team.refused team.members []
  let settles : Launch LaunchRecord := team.refused.toList.foldr .refuse (.settle started joins)
  let s₁ := (crew job []).beginAll team.members { state := c.state }
  obtain ⟨creating, c₁, hcreating, hs₁, hbegun, -⟩ :=
    exists_turns_of_creates job team.members settles c { state := c.state } rfl team.nodup
      (fun w _ => hidle w) (fun w hw => hsize ▸ team.lt w hw)
  have hstill : c₁.state.Unbroken :=
    Launching.keeps_run (JobState.Unbroken.keeps job) hunbroken hcreating
  have hstillFit := Launching.keeps_run (Job.keeps_fit job) ⟨hunbroken.unheld, hfit⟩ hcreating
  let c₂ : Course := { c₁ with state := c₁.state.settle started }
  let s₂ : Session := { s₁ with state := s₁.state.settle started }
  have hsettling : Launching.run job
      (team.refused.toList.map (fun _ => .launcher) ++ [.launcher])
      { todo := settles, course := c₁ } = some { todo := joins, course := c₂ } := by
    unfold settles
    cases team.refused <;> rfl
  have hcrew : (crew job []).run team.plan { state := c.state } = (crew job []).run joins s₂ := by
    rw [Team.plan, Launch.contract, Crew.run_foldr_create, Crew.run_foldr_refuse]
    rfl
  obtain ⟨joining, l, hjoining, hending, hl⟩ :=
    exists_turns_of_joins job started team.refused team.members [] c₂ s₂
      (congrArg (fun state => state.settle started) hs₁)
      ((JobState.Unbroken.keeps job).settle c₁ _ hstill)
      ((Job.keeps_fit job).settle c₁ _ hstillFit).2 (by simp [c₂, JobState.settle]) hbegun
  rw [hcrew]
  refine ⟨creating ++ ((team.refused.toList.map (fun _ => .launcher) ++ [.launcher]) ++ joining),
    l, ?_, hending, hl⟩
  change Launching.run job _ { todo := team.members.foldr .create settles, course := c } = some l
  rw [Launching.run_append, hcreating, Option.bind_some, Launching.run_append, hsettling,
    Option.bind_some, hjoining]

/-- A call over some index runs the launch on the crew of its job. -/
theorem run_of_pos {e : Executor} {request : Request} {binding : Binding} (memory : Memory)
    (hbinding : Binding.ofOperands? request.kernel request.operands = .ok binding)
    (helements : 0 < request.elements) {plan : Launch LaunchRecord}
    (hplan : e.launcher.plan e.host (e.partition request.elements).workers = plan) :
    let p := e.partition request.elements
    let left := (crew (e.job request binding) request.hooks).run plan
      { state := (e.opening memory p).state }
    (e.run memory request).outcome = e.conclude p left.1 left.2.state ∧
      (e.run memory request).session.state = left.2.state := by
  have hcall := e.run_eq_call memory request
  rw [call_of_pos hbinding helements, hplan] at hcall
  obtain ⟨houtcome, hcourse⟩ := Prod.ext_iff.mp (Option.some.inj hcall)
  exact ⟨houtcome, congrArg Course.state hcourse⟩

/-- A call on threads is one of the calls under a schedule, also if it unwinds over the name of a
thread. -/
theorem exists_scheduled_of_run (e : Executor) (memory : Memory) (request : Request)
    {library : ThreadLibrary} {namePrefix : String} {stackSize : Option Nat}
    (hthreads : e.launcher = .threads library namePrefix stackSize)
    (hhooks : request.hooks = []) :
    ∃ (turns : List Turn) (c : Course),
      e.scheduled (e.launcher.plan e.host (e.partition request.elements).workers) turns memory
        request = some ((e.run memory request).outcome, c) ∧
      c.state = (e.run memory request).session.state := by
  cases hbinding : Binding.ofOperands? request.kernel request.operands with
  | error reason =>
      refine ⟨[], { state := (e.run memory request).session.state }, ?_, rfl⟩
      rw [run_eq_call, call_of_error hbinding, scheduled_of_error hbinding]
  | ok binding =>
      rcases Nat.eq_zero_or_pos request.elements with hempty | helements
      · refine ⟨[], { state := (e.run memory request).session.state }, ?_, rfl⟩
        rw [run_eq_call, call_of_empty hbinding hempty, scheduled_of_empty hbinding hempty]
      · let opening := e.opening memory (e.partition request.elements)
        cases hname : e.launcher.namingFault? (e.partition request.elements).workers with
        | none =>
            have hplan := Launcher.plan_eq hthreads hname e.host
            obtain ⟨houtcome, hstate⟩ := run_of_pos memory hbinding helements hplan
            obtain ⟨turns, l, hturns, hending, hl⟩ := exists_turns_of_launch
              (e.job request binding) (.created (e.host.creates stackSize) _) opening
              (JobState.Unbroken.initial memory _ _) (JobState.fit_initial memory _ _)
              (JobState.phase_initial memory _ _)
              ((JobState.size_workers_initial memory _ _).trans (Partition.length_ranges _))
            rw [hhooks, ← hl] at houtcome hstate
            rw [hplan, houtcome, hstate]
            exact ⟨turns, l.course, scheduledFrom_of_run hbinding helements hturns hending, rfl⟩
        | some cause =>
            -- nothing has happened yet when the launch unwinds
            have hplan := Launcher.plan_eq_unwind hname e.host
            obtain ⟨houtcome, hstate⟩ := run_of_pos memory hbinding helements hplan
            rw [hplan, houtcome, hstate]
            exact ⟨[], opening, scheduledFrom_of_run (l := ⟨.unwind cause, opening⟩) hbinding
              helements rfl rfl, rfl⟩

/-- A call on threads that returns leaves the memory of the sequential loop. -/
theorem run_memory_eq_sequential (e : Executor) (memory : Memory) (request : Request)
    {library : ThreadLibrary} {namePrefix : String} {stackSize : Option Nat} {binding : Binding}
    {report : Report} (hthreads : e.launcher = .threads library namePrefix stackSize)
    (hhooks : request.hooks = [])
    (hbinding : Binding.ofOperands? request.kernel request.operands = .ok binding)
    (hseparate : binding.Separate request.elements)
    (hreturned : (e.run memory request).outcome = .returned report) :
    (e.run memory request).session.state.memory =
      binding.invokeAll memory (List.range request.elements) := by
  obtain ⟨turns, c, hscheduled, hstate⟩ :=
    exists_scheduled_of_run e memory request hthreads hhooks
  rw [hreturned] at hscheduled
  rw [← hstate]
  cases hname : e.launcher.namingFault? (e.partition request.elements).workers with
  | none =>
      rw [Launcher.plan_eq hthreads hname] at hscheduled
      exact memory_eq_of_returned hbinding hseparate hscheduled
  | some cause =>
      -- the launch has unwound, so that the call cannot have returned
      have helements : 0 < request.elements := by
        refine Nat.pos_of_ne_zero fun hempty => ?_
        rw [hempty, partition, Partition.workers_split_zero, hthreads] at hname
        cases hname
      have houtcome :=
        (run_of_pos memory hbinding helements (Launcher.plan_eq_unwind hname _)).1
      obtain ⟨_, ⟨⟩, -⟩ := conclude_eq_returned (houtcome.symm.trans hreturned)

end Executor

end Elementwise
