import Elementwise.Proofs.Job.Effort
import Elementwise.Proofs.Job.Playing

/-!
Runs of a team: its members begin, and from then on workers take steps in any order. Nobody begins
twice in such a run, so that properties hold in it that another run of the same worker would break.
-/

namespace Elementwise

namespace Job

/-- A property of courses that holds on behind an open gate as long as nobody begins again. -/
structure KeepsOnce (job : Job) (property : Course → Prop) : Prop where
  unheld : ∀ c, property c → c.state.Unheld
  move : ∀ c w deed s', property c → c.state.gate.isOpen = true → Move job c.state w deed s' →
    property (c.note deed s')
  start : ∀ c w, property c → c.state.phase w = .idle →
    property { c with state := c.state.start w }
  gate : ∀ c gate, property c → property { c with state := { c.state with gate } }

variable {job : Job} {c c' : Course} {team turns : List Nat} {property : Course → Prop}

theorem follow_append (events later : List Event) (c : Course) :
    job.follow (events ++ later) c = (job.follow events c).bind (job.follow later) := by
  induction events generalizing c with
  | nil => rfl
  | cons event rest ih =>
      rw [List.cons_append, follow, follow, Option.bind_assoc]
      exact congrArg _ (funext ih)

namespace KeepsOnce

theorem steps (hkeeps : KeepsOnce job property) (h : property c)
    (hopen : c.state.gate.isOpen = true) (hfollow : job.follow (turns.map .step) c = some c') :
    property c' := by
  induction turns generalizing c with
  | nil =>
      cases hfollow
      exact h
  | cons w turns ih =>
      obtain ⟨middle, hoccur, hrest⟩ := Option.bind_eq_some_iff.mp hfollow
      obtain ⟨s', hstep, rfl⟩ := Option.map_eq_some_iff.mp hoccur
      have hmove := move_of_step (hkeeps.unheld c h) hstep
      refine ih (hkeeps.move c w _ s' h hopen hmove) ?_ hrest
      rw [Course.state_note, hmove.gate_eq]
      exact hopen

theorem starts (hkeeps : KeepsOnce job property) (h : property c) (hwaiting : c.state.Waiting)
    (hfollow : job.follow (team.map .start) c = some c') :
    property c' ∧ c'.state.gate = c.state.gate := by
  induction team generalizing c with
  | nil =>
      cases hfollow
      exact ⟨h, rfl⟩
  | cons w team ih =>
      obtain ⟨middle, hoccur, hrest⟩ := Option.bind_eq_some_iff.mp hfollow
      simp only [occur] at hoccur
      split at hoccur
      · cases hoccur
      · rename_i hrunning
        cases hoccur
        have hidle : c.state.phase w = .idle := by
          refine (hwaiting w).resolve_right fun hgate => hrunning ?_
          rw [hgate]
          rfl
        have hlast := ih (hkeeps.start c w h hidle) (hwaiting.start w) hrest
        exact ⟨hlast.1, hlast.2.trans (c.state.gate_start w)⟩

theorem run (hkeeps : KeepsOnce job property) (h : property c) (hwaiting : c.state.Waiting)
    (hopen : c.state.gate.isOpen = true)
    (hfollow : job.follow (team.map .start ++ turns.map .step) c = some c') : property c' := by
  rw [follow_append] at hfollow
  obtain ⟨middle, hstarts, hsteps⟩ := Option.bind_eq_some_iff.mp hfollow
  obtain ⟨hmiddle, hgate⟩ := hkeeps.starts h hwaiting hstarts
  exact hkeeps.steps hmiddle (hgate ▸ hopen) hsteps

end KeepsOnce

theorem size_workers_follow {events : List Event} (hunheld : c.state.Unheld)
    (hfollow : job.follow events c = some c') :
    c'.state.workers.size = c.state.workers.size := by
  have hkeeps : job.Keeps fun c' =>
      c'.state.Unheld ∧ c'.state.workers.size = c.state.workers.size := {
    unheld := fun _ h => h.1
    move := fun _ _ _ _ h hmove => ⟨hmove.unheld h.1, hmove.size_workers.trans h.2⟩
    start := fun c w h hrunning =>
      ⟨(Job.keeps_unheld job).start c w h.1 hrunning, (c.state.size_workers_start w).trans h.2⟩
    settle := fun _ _ h => h }
  exact (hkeeps.follow ⟨hunheld, rfl⟩ hfollow).2

/-- Every member of a team has begun. -/
theorem begun_of_team (hunheld : c.state.Unheld)
    (hfollow : job.follow (team.map .start ++ turns.map .step) c = some c') {w : Nat}
    (hw : w ∈ team) (hsize : w < c.state.workers.size) : c'.state.phase w ≠ .idle := by
  induction team generalizing c with
  | nil => cases hw
  | cons v team ih =>
      obtain ⟨middle, hoccur, hrest⟩ := Option.bind_eq_some_iff.mp hfollow
      have hstill := (keeps_unheld job).occur hunheld hoccur
      rcases List.mem_cons.mp hw with rfl | hmem
      · have hbegun : middle.state.phase w ≠ .idle := by
          simp only [occur] at hoccur
          split at hoccur
          · cases hoccur
          · cases hoccur
            rw [JobState.phase_start_self hsize]
            exact Phase.noConfusion
        exact ((keeps_begun job w).follow ⟨hstill, hbegun⟩ hrest).2
      · refine ih hstill hrest hmem ?_
        have hone : job.follow [.start v] c = some middle := by
          rw [follow, hoccur]
          rfl
        rw [size_workers_follow hunheld hone]
        exact hsize

theorem length_add_effort_le_of_steps (hlasting : c.state.Lasting job)
    (hfollow : job.follow (turns.map .step) c = some c') :
    turns.length + c'.state.effort ≤ c.state.effort := by
  induction turns generalizing c with
  | nil =>
      cases hfollow
      exact Nat.le_of_eq (Nat.zero_add _)
  | cons w turns ih =>
      obtain ⟨middle, hoccur, hrest⟩ := Option.bind_eq_some_iff.mp hfollow
      obtain ⟨s', hstep, rfl⟩ := Option.map_eq_some_iff.mp hoccur
      have hmove := move_of_step hlasting.unheld hstep
      have hlt := hmove.effort_lt hlasting
      have hle := ih (hmove.lasting hlasting) hrest
      rw [Course.state_note] at hle
      rw [List.length_cons]
      omega

theorem effort_le_of_starts (hfollow : job.follow (team.map .start) c = some c') :
    c'.state.effort ≤
      c.state.effort + team.length * (2 * c.state.workers.size + 4) := by
  induction team generalizing c with
  | nil =>
      cases hfollow
      exact Nat.le_add_right _ _
  | cons w team ih =>
      obtain ⟨middle, hoccur, hrest⟩ := Option.bind_eq_some_iff.mp hfollow
      simp only [occur] at hoccur
      split at hoccur
      · cases hoccur
      · rename_i hrunning
        cases hoccur
        have hstart := JobState.effort_start_le (Bool.eq_false_of_not_eq_true hrunning)
        have hle := ih hrest
        simp only [JobState.size_workers_start] at hle
        rw [List.length_cons, Nat.succ_mul]
        omega

/-- A team can only take so many steps. -/
theorem length_le_of_team (hlasting : c.state.Lasting job)
    (hfollow : job.follow (team.map .start ++ turns.map .step) c = some c') :
    turns.length ≤ c.state.effort + team.length * (2 * c.state.workers.size + 4) := by
  rw [follow_append] at hfollow
  obtain ⟨middle, hstarts, hsteps⟩ := Option.bind_eq_some_iff.mp hfollow
  have hbegun := effort_le_of_starts hstarts
  have hsteps := length_add_effort_le_of_steps
    ((JobState.Lasting.keeps job).follow hlasting hstarts) hsteps
  omega

theorem keeps_fit (job : Job) : job.Keeps fun c => c.state.Unheld ∧ c.state.Fit where
  unheld _ h := h.1
  move _ _ _ _ h hmove := ⟨hmove.unheld h.1, hmove.fit h.2⟩
  start c w h hrunning := ⟨(keeps_unheld job).start c w h.1 hrunning, h.2.start w⟩
  settle _ _ h := ⟨h.1, h.2.sizes, h.2.peers⟩

theorem fit_follow {events : List Event} (hunheld : c.state.Unheld) (hfit : c.state.Fit)
    (hfollow : job.follow events c = some c') : c'.state.Fit :=
  ((keeps_fit job).follow ⟨hunheld, hfit⟩ hfollow).2

theorem gate_follow {events : List Event} (hunheld : c.state.Unheld)
    (hfollow : job.follow events c = some c') (hsettle : ∀ started, .settle started ∉ events) :
    c'.state.gate = c.state.gate := by
  induction events generalizing c with
  | nil =>
      cases hfollow
      rfl
  | cons event rest ih =>
      obtain ⟨middle, hoccur, hrest⟩ := Option.bind_eq_some_iff.mp hfollow
      have hstill := (keeps_unheld job).occur hunheld hoccur
      refine (ih hstill hrest fun started hmem =>
        hsettle started (List.mem_cons_of_mem event hmem)).trans ?_
      cases event with
      | start w =>
          simp only [occur] at hoccur
          split at hoccur
          · cases hoccur
          · cases hoccur
            exact c.state.gate_start w
      | settle started => exact absurd List.mem_cons_self (hsettle started)
      | step w =>
          obtain ⟨s', hstep, rfl⟩ := Option.map_eq_some_iff.mp hoccur
          exact (move_of_step hunheld hstep).gate_eq

/-- Behind a settled gate every member of a team has come to an end or can go on. -/
theorem over_or_ready_of_team (hlasting : c.state.Lasting job) (hfit : c.state.Fit)
    (hsettled : c.state.gate.wait?.isSome = true)
    (hfollow : job.follow (team.map .start ++ turns.map .step) c = some c') {w : Nat}
    (hw : w ∈ team) (hsize : w < c.state.workers.size) :
    (c'.state.phase w).isOver = true ∨ c'.state.isReady w = true := by
  have hbegun := begun_of_team hlasting.unheld hfollow hw hsize
  rw [← gate_follow hlasting.unheld hfollow (by simp)] at hsettled
  rcases hrunning : (c'.state.phase w).isRunning with - | -
  · exact .inl (Phase.isOver_of_not_running hbegun hrunning)
  · exact .inr (JobState.isReady_of_isRunning
      ((JobState.Lasting.keeps job).follow hlasting hfollow)
      (fit_follow hlasting.unheld hfit hfollow) hsettled hrunning)

end Job

end Elementwise
