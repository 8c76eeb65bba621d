import Elementwise.Job.Script
import Elementwise.Proofs.Job.Ending

/-!
Workers that are played one at a time. Playing a worker to its end is a row of its steps, so what
holds on whatever happens next also holds of a session that is played.
-/

namespace Elementwise

theorem Session.play_nil (job : Job) (hooks : Hooks) (fuel : Nat) (s : Session) :
    Session.play job hooks fuel [] s = s := by
  cases fuel <;> rfl

theorem Session.hooked_nil (s : JobState) (w : Nat) (rest : List Frame) :
    Session.hooked [] s w rest = rest := by
  unfold Session.hooked
  split <;> rfl

theorem Job.step_eq_of_isReady (job : Job) {s : JobState} {w : Nat} (h : s.isReady w = true) :
    job.step s w = some (job.advance s w) := by
  rw [Job.step, if_pos h]

theorem Job.Move.phase_ne_idle {job : Job} {s s' : JobState} {w : Nat} {deed : Option Deed}
    (h : Job.Move job s w deed s') : s'.phase w ≠ .idle := by
  have hsweep (self count peer : Nat) (found : Bool) :
      Phase.sweepFrom self count peer found ≠ .idle :=
    Phase.sweepFrom_induction (motive := fun phase => phase ≠ .idle)
      (fun _ _ => Phase.noConfusion) Phase.noConfusion self count peer found
  have hset {worker : Worker} (hworker : s.workers[w]? = some worker) {s₁ : JobState}
      (hsize : s₁.workers.size = s.workers.size) (after : Worker) {phase : Phase}
      (hphase : phase ≠ .idle) : (s₁.setPhase w after phase).phase w ≠ .idle := by
    rw [JobState.phase_setPhase_self (hsize ▸ JobState.lt_size hworker)]
    exact hphase
  cases h with
  | @enter worker told hworker =>
      refine hset hworker rfl _ ?_
      cases told <;> exact Phase.noConfusion
  | @take worker q access deque found rest hworker haccess =>
      refine hset hworker rfl _ ?_
      cases hphase : worker.phase with
      | draining =>
          cases found with
          | none => exact hsweep w s.workers.size 0 false
          | some index => exact Phase.noConfusion
      | sweeping peer any =>
          cases found with
          | none => exact hsweep w s.workers.size (peer + 1) any
          | some index => exact Phase.noConfusion
      | _ =>
          rw [hphase] at haccess
          cases haccess
  | @breach worker q access deque hworker haccess =>
      unfold Job.breach
      split
      · intro hidle
        have hphase : worker.phase = .idle := (JobState.phase_eq hworker).symm.trans hidle
        rw [hphase] at haccess
        cases haccess
      · exact hset hworker rfl _ Phase.noConfusion
  | call hworker => exact hset hworker rfl _ Phase.noConfusion
  | unwind hworker => exact hset hworker rfl _ Phase.noConfusion
  | read hworker => exact hset hworker rfl _ Phase.noConfusion
  | @store worker index origin bits hworker =>
      refine hset hworker rfl _ ?_
      cases origin with
      | own => exact Phase.noConfusion
      | peer peer => exact hsweep w s.workers.size (peer + 1) true

/-- A worker that has begun a run never goes back to where it was before. -/
theorem Job.keeps_begun (job : Job) (w : Nat) :
    job.Keeps fun c => c.state.Unheld ∧ c.state.phase w ≠ .idle where
  unheld _ h := h.1
  move c v deed s' h hmove := by
    refine ⟨hmove.unheld h.1, ?_⟩
    by_cases hv : w = v
    · rw [hv]
      exact hmove.phase_ne_idle
    · exact fun hidle => h.2 ((hmove.phase_of_ne hv).symm.trans hidle)
  start c v h hrunning := by
    refine ⟨(Job.keeps_unheld job).start c v h.1 hrunning, fun hidle => ?_⟩
    rcases c.state.phase_start v w with hsame | ⟨-, hgate⟩
    · exact h.2 (hsame.symm.trans hidle)
    · cases hgate.symm.trans hidle
  settle _ _ h := h

/-- Without hooks, playing a worker takes steps of this worker and nothing else. -/
theorem Session.exists_follow_of_play (job : Job) (w : Nat) (call : Option Nat) (fuel : Nat)
    (c : Course) (results : Array (Option Nat × ActionResult)) (hunbroken : c.state.Unbroken) :
    ∃ steps c', job.follow (List.replicate steps (.step w)) c = some c' ∧
      c'.state = (Session.play job [] fuel [.running call w] ⟨c.state, results⟩).state := by
  induction fuel generalizing c results with
  | zero => exact ⟨0, c, rfl, rfl⟩
  | succ fuel ih =>
      by_cases hover : (c.state.phase w).isOver = true
      · refine ⟨0, c, rfl, ?_⟩
        simp only [play, hover, if_true, play_nil]
      · by_cases hready : c.state.isReady w = true
        · have hstep := Job.step_eq_of_isReady job hready
          have hmove := Job.move_of_step hunbroken.unheld hstep
          have hstill := hunbroken.move hmove
          obtain ⟨steps, c', hfollow, hstate⟩ :=
            ih (c.note (job.deed? c.state w) (job.advance c.state w)) results hstill
          refine ⟨steps + 1, c', ?_, ?_⟩
          · rw [List.replicate_succ, Job.follow, Job.occur, hstep]
            exact hfollow
          · rw [hstate]
            simp [play, hover, hready, hooked_nil, hstill.aborted]
        · refine ⟨0, c, rfl, ?_⟩
          simp [play, hover, hready]

theorem Session.exists_follow_of_finish (job : Job) (w : Nat) (c : Course)
    (results : Array (Option Nat × ActionResult)) (hunbroken : c.state.Unbroken) :
    ∃ steps c', job.follow (List.replicate steps (.step w)) c = some c' ∧
      c'.state = (Session.finish job [] w ⟨c.state, results⟩).state :=
  exists_follow_of_play job w none _ c results hunbroken

end Elementwise
