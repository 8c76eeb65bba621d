import Elementwise.Proofs.Job.Playing
import Elementwise.Proofs.Job.Sweep
import Elementwise.Proofs.Launch.Team
import Mathlib.Data.List.Basic
import Mathlib.Tactic.ByContra

/-!
A launch among its workers. The launcher creates threads, settles the gate and joins, and the
threads run meanwhile: launcher and workers take turns in any order. When everyone is joined, each
member of the team has come to an end, nobody else has begun, and the payloads are those of the
members that died.
-/

namespace Elementwise

/-- Who acts next. -/
inductive Turn where
  | launcher
  | worker (w : Nat)
deriving DecidableEq, Repr

/-- A launch under way: what the launcher has still to do, and the job. -/
structure Launching where
  todo : Launch LaunchRecord
  course : Course

/-- The payloads of the given workers that died. -/
def JobState.losses (s : JobState) (workers : List Nat) : List (Nat × Payload) :=
  Launch.losses (fun w => (s.phase w).payload?) workers

theorem JobState.losses_concat (s : JobState) (done : List Nat) (w : Nat) :
    s.losses (done ++ [w]) =
      s.losses done ++ ((s.phase w).payload?.map fun cause => (w, cause)).toList := by
  rw [losses, Launch.losses_append, Launch.losses_singleton]
  rfl

namespace Launching

/-- The launcher does its next step. It cannot join a worker whose run is not over. -/
def proceed (job : Job) (l : Launching) : Option Launching :=
  match l.todo with
  | .result _ | .unwind _ => none
  | .create w rest =>
      (job.occur l.course (.start w)).map fun course => { todo := rest, course }
  | .refuse _ rest => some { l with todo := rest }
  | .settle started rest =>
      (job.occur l.course (.settle started)).map fun course => { todo := rest, course }
  | .join w rest =>
      if (l.course.state.phase w).isOver then
        some { l with todo := rest (l.course.state.phase w).payload? }
      else none

/-- The launcher or a worker takes a turn, if it can. -/
def turn (job : Job) (l : Launching) : Turn → Option Launching
  | .launcher => l.proceed job
  | .worker w => (job.occur l.course (.step w)).map fun course => { l with course }

def run (job : Job) : List Turn → Launching → Option Launching
  | [], l => some l
  | turn :: rest, l => (l.turn job turn).bind (run job rest)

variable {job : Job} {l l' : Launching}

theorem run_append (turns turns' : List Turn) (l : Launching) :
    l.run job (turns ++ turns') = (l.run job turns).bind (run job turns') := by
  induction turns generalizing l with
  | nil => rfl
  | cons turn rest ih =>
      rw [List.cons_append, run, run, Option.bind_assoc]
      exact congrArg _ (funext ih)

/-- What the launcher can do: it lets a worker begin, notes that one cannot be started, settles the
gate, or goes on behind a worker whose run is over. -/
theorem proceed_cases (h : l.proceed job = some l') :
    (∃ w, l.todo = .create w l'.todo ∧ (l.course.state.phase w).isRunning = false ∧
      l'.course = { l.course with state := l.course.state.start w }) ∨
    (∃ w, l.todo = .refuse w l'.todo ∧ l'.course = l.course) ∨
    (∃ started, l.todo = .settle started l'.todo ∧
      l'.course = { l.course with state := l.course.state.settle started }) ∨
    ∃ w rest, l.todo = .join w rest ∧ (l.course.state.phase w).isOver = true ∧
      l'.todo = rest (l.course.state.phase w).payload? ∧ l'.course = l.course := by
  obtain ⟨todo, course⟩ := l
  cases todo with
  | result record => cases h
  | unwind cause => cases h
  | create w rest =>
      simp only [proceed, Job.occur] at h
      split at h
      · cases h
      · rename_i hrunning
        cases h
        exact .inl ⟨w, rfl, (Bool.not_eq_true _).mp hrunning, rfl⟩
  | refuse w rest =>
      cases h
      exact .inr (.inl ⟨w, rfl, rfl⟩)
  | settle started rest =>
      cases h
      exact .inr (.inr (.inl ⟨started, rfl, rfl⟩))
  | join w rest =>
      simp only [proceed] at h
      split at h
      · rename_i hover
        cases h
        exact .inr (.inr (.inr ⟨w, rest, rfl, hover, rfl, rfl⟩))
      · cases h

theorem occur_of_turn {turn : Turn} (hturn : l.turn job turn = some l') :
    l'.course = l.course ∨ ∃ event, job.occur l.course event = some l'.course := by
  cases turn with
  | worker w =>
      obtain ⟨course, hoccur, rfl⟩ := Option.map_eq_some_iff.mp hturn
      exact .inr ⟨_, hoccur⟩
  | launcher =>
      rcases proceed_cases hturn with ⟨w, -, hrunning, hcourse⟩ | ⟨-, -, hcourse⟩ |
        ⟨started, -, hcourse⟩ | ⟨-, -, -, -, -, hcourse⟩
      · refine .inr ⟨.start w, ?_⟩
        rw [Job.occur, hrunning, hcourse]
        rfl
      · exact .inl hcourse
      · refine .inr ⟨.settle started, ?_⟩
        rw [hcourse]
        rfl
      · exact .inl hcourse

theorem keeps_turn {property : Course → Prop} (hkeeps : job.Keeps property)
    (h : property l.course) {turn : Turn} (hturn : l.turn job turn = some l') :
    property l'.course := by
  rcases occur_of_turn hturn with hsame | ⟨event, hoccur⟩
  · rw [hsame]
    exact h
  · exact hkeeps.occur h hoccur

/-- What every turn preserves holds after any number of turns. -/
theorem run_induction {motive : Launching → Prop} (h : motive l)
    (hstep : ∀ l l' turn, motive l → l.turn job turn = some l' → motive l') {turns : List Turn}
    (hrun : l.run job turns = some l') : motive l' := by
  induction turns generalizing l with
  | nil =>
      cases hrun
      exact h
  | cons turn rest ih =>
      obtain ⟨middle, hturn, hrest⟩ := Option.bind_eq_some_iff.mp hrun
      exact ih (hstep l middle turn h hturn) hrest

theorem keeps_run {property : Course → Prop} (hkeeps : job.Keeps property)
    (h : property l.course) {turns : List Turn} (hrun : l.run job turns = some l') :
    property l'.course := by
  refine run_induction (motive := fun l => property l.course) h ?_ hrun
  intro l l' turn h hturn
  exact keeps_turn hkeeps h hturn

end Launching

namespace JobState

theorem Waiting.step_eq_none {s : JobState} (h : s.Waiting) (hpending : s.gate.state = .pending)
    (job : Job) (w : Nat) : job.step s w = none := by
  have hwait : s.gate.wait? = none := by simp [Gate.wait?, hpending]
  have hready : s.isReady w = false := by
    rcases h w with hphase | hphase
    · simp [isReady, hphase]
    · simp [isReady, hphase, hwait]
  rw [Job.step, hready]
  rfl

end JobState

namespace Launching

/-- How far the launch of a team has come. Until the gate is settled nobody passes it, so that from
then on workers have only come from the front of their own deques. -/
inductive Stage {workers : Nat} (team : Team workers) (gate : Gate) (l : Launching) : Prop where
  | gathering (made rest refused : List Nat) (hmembers : made ++ rest = team.members)
      (htodo : l.todo =
        rest.foldr .create (refused.foldr .refuse (.settling team.members team.refused)))
      (hgate : l.course.state.gate = gate) (hdeeds : l.course.deeds = [])
      (hsize : l.course.state.workers.size = workers)
      (hwaiting : l.course.state.Waiting) (hswept : l.course.state.Swept)
      (hbegun : ∀ w ∈ made, l.course.state.phase w ≠ .idle)
      (hidle : ∀ w, w ∉ made → l.course.state.phase w = .idle)
  | joining (done rest : List Nat) (hmembers : done ++ rest = team.members)
      (htodo : l.todo =
        .joining team.members.length team.refused rest (l.course.state.losses done))
      (hdone : ∀ w ∈ done, (l.course.state.phase w).isOver = true)
      (hbegun : ∀ w ∈ rest, l.course.state.phase w ≠ .idle)
      (hmourned : l.course.Mourned) (hmanned : l.course.state.Manned team.members)
      (hgate : l.course.state.gate = gate.settle team.members.length)

namespace Stage

variable {job : Job} {workers : Nat} {team : Team workers} {gate : Gate} {l l' : Launching}

theorem of_idle (team : Team workers) {s : JobState} (hidle : ∀ w, s.phase w = .idle)
    (hsizes : s.deques.size = s.workers.size) (hsize : s.workers.size = workers) :
    Stage team s.gate { todo := team.plan, course := { state := s } } := by
  refine .gathering [] team.members team.refused.toList rfl rfl rfl rfl hsize
    (fun w => .inl (hidle w)) ⟨hsizes, fun w => ?_⟩ (fun w hw => absurd hw List.not_mem_nil)
    fun w _ => hidle w
  change (s.phase w).Swept s w
  rw [hidle w]
  trivial

theorem initial (team : Team workers) (memory : Memory) (gate : Gate) {spans : List Span}
    (hspans : spans.length = workers) :
    Stage team gate { todo := team.plan, course := { state := .initial memory gate spans } } :=
  of_idle team (JobState.phase_initial memory gate spans) (by simp [JobState.initial])
    ((JobState.size_workers_initial memory gate spans).trans hspans)

theorem losses_eq {s s' : JobState} {members : List Nat}
    (h : ∀ w ∈ members, s'.phase w = s.phase w) :
    s'.losses members = s.losses members :=
  List.filterMap_congr fun w hw => by simp only [h w hw]

theorem workerTurn (h : l.Stage team gate) (hpending : gate.state = .pending)
    (hunheld : l.course.state.Unheld) {w : Nat} (hturn : l.turn job (.worker w) = some l') :
    l'.Stage team gate := by
  obtain ⟨course, hoccur, rfl⟩ := Option.map_eq_some_iff.mp hturn
  obtain ⟨s', hstep, rfl⟩ := Option.map_eq_some_iff.mp hoccur
  cases h with
  | gathering made rest refused hmembers htodo hgate hdeeds hsize hwaiting =>
      rw [← hgate] at hpending
      rw [hwaiting.step_eq_none hpending job w] at hstep
      cases hstep
  | joining done rest hmembers htodo hdone hbegun hmourned hmanned hgate =>
      have hmove := Job.move_of_step hunheld hstep
      have hsame (v : Nat) (hv : v ∈ done) : s'.phase v = l.course.state.phase v := by
        refine hmove.phase_of_ne fun heq => ?_
        have hover := Phase.not_running_of_isOver (hdone v hv)
        rw [heq, hmove.isRunning] at hover
        cases hover
      refine .joining done rest hmembers ?_ (fun v hv => ?_) (fun v hv => ?_)
        (hmourned.move hmove) (hmanned.move hmove) ?_
      · rw [Course.state_note, losses_eq hsame]
        exact htodo
      · rw [Course.state_note, hsame v hv]
        exact hdone v hv
      · exact ((Job.keeps_begun job v).occur ⟨hunheld, hbegun v hv⟩ hoccur).2
      · rw [Course.state_note, hmove.gate_eq]
        exact hgate

theorem launcherTurn (h : l.Stage team gate) (hturn : l.turn job .launcher = some l') :
    l'.Stage team gate := by
  obtain ⟨todo, course⟩ := l'
  have hcases := proceed_cases hturn
  cases h with
  | gathering made rest refused hmembers htodo hgate hdeeds hsize hwaiting hswept hbegun hidle =>
      rw [htodo] at hcases
      cases rest with
      | cons w rest =>
          obtain ⟨_, ⟨⟩, -, ⟨⟩⟩ | ⟨_, ⟨⟩, -⟩ | ⟨_, ⟨⟩, -⟩ | ⟨_, _, ⟨⟩, -⟩ := hcases
          have hw : w < l.course.state.workers.size := by
            refine hsize ▸ team.lt w (hmembers ▸ ?_)
            exact List.mem_append_right _ List.mem_cons_self
          refine .gathering (made ++ [w]) rest refused ?_ rfl ?_ hdeeds ?_ (hwaiting.start w)
            (hswept.start w) (fun v hv => ?_) (fun v hv => ?_)
          · rw [List.append_assoc]
            exact hmembers
          · exact (JobState.gate_start ..).trans hgate
          · exact (JobState.size_workers_start ..).trans hsize
          · rcases l.course.state.phase_start w v with hsame | ⟨-, hstarted⟩
            · by_cases heq : v = w
              · rw [heq, JobState.phase_start_self hw]
                exact Phase.noConfusion
              · rw [hsame]
                exact hbegun v ((List.mem_append.mp hv).resolve_right (by simpa using heq))
            · rw [hstarted]
              exact Phase.noConfusion
          · rw [List.mem_append, List.mem_singleton, not_or] at hv
            rw [JobState.phase_start_of_ne hv.2]
            exact hidle v hv.1
      | nil =>
          obtain rfl : made = team.members := (List.append_nil made).symm.trans hmembers
          cases refused with
          | cons w refused =>
              obtain ⟨_, ⟨⟩, -⟩ | ⟨_, ⟨⟩, ⟨⟩⟩ | ⟨_, ⟨⟩, -⟩ | ⟨_, _, ⟨⟩, -⟩ := hcases
              exact .gathering team.members [] refused hmembers rfl hgate hdeeds hsize hwaiting
                hswept hbegun hidle
          | nil =>
              obtain ⟨_, ⟨⟩, -⟩ | ⟨_, ⟨⟩, -⟩ | ⟨_, ⟨⟩, ⟨⟩⟩ | ⟨_, _, ⟨⟩, -⟩ := hcases
              refine .joining [] team.members rfl rfl ?_ hbegun ?_ ?_ ?_
              · exact fun v hv => absurd hv List.not_mem_nil
              · intro v index hmem
                rw [hdeeds] at hmem
                exact absurd hmem List.not_mem_nil
              · exact ⟨fun _ => ⟨hswept.sizes, hswept.phases⟩, hidle⟩
              · exact congrArg (fun g => g.settle team.members.length) hgate
  | joining done rest hmembers htodo hdone hbegun hmourned hmanned hgate =>
      rw [htodo] at hcases
      cases rest with
      | nil => obtain ⟨_, ⟨⟩, -⟩ | ⟨_, ⟨⟩, -⟩ | ⟨_, ⟨⟩, -⟩ | ⟨_, _, ⟨⟩, -⟩ := hcases
      | cons w rest =>
          obtain ⟨_, ⟨⟩, -⟩ | ⟨_, ⟨⟩, -⟩ | ⟨_, ⟨⟩, -⟩ | ⟨_, _, ⟨⟩, hover, ⟨⟩, ⟨⟩⟩ := hcases
          refine .joining (done ++ [w]) rest ?_ ?_ (fun v hv => ?_) (fun v hv => ?_) hmourned
            hmanned hgate
          · rw [List.append_assoc]
            exact hmembers
          · rw [JobState.losses_concat]
          · rcases List.mem_append.mp hv with hv | hv
            · exact hdone v hv
            · rw [List.mem_singleton.mp hv]
              exact hover
          · exact hbegun v (List.mem_cons_of_mem w hv)

theorem turn (h : l.Stage team gate) (hpending : gate.state = .pending)
    (hunheld : l.course.state.Unheld) {turn : Turn} (hturn : l.turn job turn = some l') :
    l'.Stage team gate := by
  cases turn with
  | launcher => exact h.launcherTurn hturn
  | worker w => exact h.workerTurn hpending hunheld hturn

theorem run (h : l.Stage team gate) (hpending : gate.state = .pending)
    (hunheld : l.course.state.Unheld) {turns : List Turn} (hrun : l.run job turns = some l') :
    l'.Stage team gate := by
  refine (run_induction (motive := fun l => l.Stage team gate ∧ l.course.state.Unheld)
    ⟨h, hunheld⟩ ?_ hrun).1
  rintro l l' turn ⟨h, hunheld⟩ hturn
  exact ⟨h.turn hpending hunheld hturn, keeps_turn (Job.keeps_unheld job) hunheld hturn⟩

end Stage

end Launching

/-- A job whose launch is over: every member of the team has come to an end, and nobody else began.
-/
structure Course.Joined {workers : Nat} (team : Team workers) (gate : Gate) (c : Course) :
    Prop where
  stopped : ∀ w ∈ team.members, (c.state.phase w).isOver = true
  mourned : c.Mourned
  manned : c.state.Manned team.members
  gate : c.state.gate = gate.settle team.members.length

variable {workers : Nat} {team : Team workers} {gate : Gate}

/-- What the launch of a team reports in the end. -/
def Team.record (team : Team workers) (s : JobState) : LaunchRecord :=
  ⟨team.members.length, team.refused, s.losses team.members⟩

theorem Launching.Stage.joined {l : Launching} (h : l.Stage team gate)
    {ending : Except Payload LaunchRecord} (hending : l.todo.ending? = some ending) :
    l.course.Joined team gate ∧ ending = .ok (team.record l.course.state) := by
  cases h with
  | gathering made rest refused _ htodo =>
      rw [htodo] at hending
      cases rest <;> cases refused <;> cases hending
  | joining done rest hmembers htodo hdone hbegun hmourned hmanned hgate =>
      rw [htodo] at hending
      cases rest with
      | cons w rest => cases hending
      | nil =>
          obtain rfl : done = team.members := (List.append_nil done).symm.trans hmembers
          cases hending
          exact ⟨⟨hdone, hmourned, hmanned, hgate⟩, rfl⟩

theorem JobState.mem_losses {s : JobState} {members : List Nat} {w : Nat} {cause : Payload} :
    (w, cause) ∈ s.losses members ↔ w ∈ members ∧ (s.phase w).payload? = some cause := by
  simp [losses, Launch.losses, List.mem_filterMap]

theorem JobState.dead_of_mem_losses {s : JobState} {members : List Nat} {w : Nat} {cause : Payload}
    (h : (w, cause) ∈ s.losses members) : ∃ held, s.phase w = .dead held cause := by
  have hpayload := (mem_losses.mp h).2
  cases hphase : s.phase w with
  | dead held cause' =>
      rw [hphase] at hpayload
      cases hpayload
      exact ⟨held, rfl⟩
  | _ =>
      rw [hphase] at hpayload
      cases hpayload

namespace Course.Joined

variable {c : Course}

theorem mem_of_phase_ne (h : c.Joined team gate) {w : Nat} (hphase : c.state.phase w ≠ .idle) :
    w ∈ team.members := by
  by_contra hout
  exact hphase (h.manned.idle w hout)

theorem not_running (h : c.Joined team gate) (w : Nat) : (c.state.phase w).isRunning = false := by
  by_cases hw : w ∈ team.members
  · exact Phase.not_running_of_isOver (h.stopped w hw)
  · rw [h.manned.idle w hw]
    rfl

theorem finished_or_lost (h : c.Joined team gate) {w : Nat} (hw : w ∈ team.members) :
    c.state.phase w = .finished ∨ ∃ cause, (w, cause) ∈ c.state.losses team.members := by
  have hover := h.stopped w hw
  cases hphase : c.state.phase w with
  | finished => exact .inl rfl
  | dead held cause =>
      refine .inr ⟨cause, JobState.mem_losses.mpr ⟨hw, ?_⟩⟩
      rw [hphase]
      rfl
  | _ =>
      rw [hphase] at hover
      cases hover

theorem lost_of_unwound (h : c.Joined team gate) {index : Nat} (hindex : index ∈ c.unwound) :
    ∃ w cause, (w, cause) ∈ c.state.losses team.members := by
  obtain ⟨deed, hdeed, hunwound⟩ := List.mem_filterMap.mp hindex
  cases deed with
  | unwound w _ =>
      cases hunwound
      obtain ⟨cause, hdead⟩ := h.mourned w index hdeed
      have hw := h.mem_of_phase_ne (w := w) (by rw [hdead]; exact Phase.noConfusion)
      refine ⟨w, cause, JobState.mem_losses.mpr ⟨hw, ?_⟩⟩
      rw [hdead]
      rfl
  | _ => cases hunwound

theorem unwound_eq_nil (h : c.Joined team gate) (hlosses : c.state.losses team.members = []) :
    c.unwound = [] := by
  refine List.eq_nil_iff_forall_not_mem.mpr fun index hindex => ?_
  obtain ⟨w, cause, hmem⟩ := h.lost_of_unwound hindex
  rw [hlosses] at hmem
  exact absurd hmem List.not_mem_nil

end Course.Joined

end Elementwise
