import Elementwise.Proofs.Job.Effort
import Elementwise.Proofs.Job.Playing
import Mathlib.Tactic.Ring

/-!
A worker that runs alone comes to its end, and within the rounds that a session gives it.
-/

namespace Elementwise

theorem Phase.effort_le (phase : Phase) (count : Nat) : phase.effort count ≤ 2 * count + 6 := by
  cases phase with
  | sweeping peer found =>
      simp only [effort]
      split <;> omega
  | _ => simp [effort]

namespace JobState

theorem untaken_eq (s : JobState) : s.untaken = s.untakenIndices.length := by
  unfold untaken untakenIndices
  induction s.deques.toList with
  | nil => rfl
  | cons deque deques ih =>
      rw [List.foldr_cons, List.flatMap_cons, List.length_append, ih, Span.length_toList]

/-- A bound for the steps that a worker still takes if nobody else does anything. -/
def effortOf (s : JobState) (w : Nat) : Nat :=
  (2 * s.workers.size + 6) * s.untakenIndices.length + (s.phase w).effort s.workers.size

theorem effortOf_lt_budget (s : JobState) (w actions : Nat) :
    s.effortOf w < Session.budget s actions := by
  have hphase := (s.phase w).effort_le s.workers.size
  calc
    s.effortOf w ≤ (2 * s.workers.size + 6) * s.untakenIndices.length +
        (2 * s.workers.size + 6) := Nat.add_le_add_left hphase _
    _ = (s.untakenIndices.length + 1) * (2 * s.workers.size + 6) := by ring
    _ < (actions + s.untaken + 2) * (2 * s.workers.size + 8) := by
      rw [s.untaken_eq]
      exact Nat.mul_lt_mul'' (by omega) (by omega)

end JobState

theorem Job.Move.effortOf_lt {job : Job} {s s' : JobState} {w : Nat} {deed : Option Deed}
    (h : Job.Move job s w deed s') (hlasting : s.Lasting job) : s'.effortOf w < s.effortOf w := by
  have hphase := h.effort_phase_lt hlasting
  have huntaken := congrArg Multiset.card h.untaken_eq
  simp only [Multiset.card_add, Multiset.coe_card] at huntaken
  rw [JobState.effortOf, JobState.effortOf, h.size_workers, ← huntaken, Nat.mul_add]
  omega

namespace Session

/-- A round for each step that a worker may still take is enough to play it to its end. -/
theorem not_running_of_play {job : Job} {w fuel : Nat} {call : Option Nat} {s : JobState}
    {results : Array (Option Nat × ActionResult)} (hunbroken : s.Unbroken) (hfit : s.Fit)
    (hsettled : s.gate.wait?.isSome = true) (hfuel : s.effortOf w < fuel) :
    ((play job [] fuel [.running call w] ⟨s, results⟩).state.phase w).isRunning = false := by
  induction fuel generalizing s results with
  | zero => exact absurd hfuel (Nat.not_lt_zero _)
  | succ fuel ih =>
      by_cases hover : (s.phase w).isOver = true
      · simpa [play, hover, play_nil] using Phase.not_running_of_isOver hover
      · by_cases hready : s.isReady w = true
        · have hmove := Job.move_of_step hunbroken.unheld (Job.step_eq_of_isReady job hready)
          have hstill := hunbroken.move hmove
          have hless := hmove.effortOf_lt (hunbroken.lasting job)
          simp only [play, hover, hready, if_true, if_false, Bool.false_eq_true, hooked_nil,
            hstill.aborted, Option.isSome_none]
          exact ih hstill (hmove.fit hfit) (by rwa [hmove.gate_eq]) (by omega)
        · simp only [play, hover, hready, if_false, Bool.false_eq_true]
          refine Bool.eq_false_of_not_eq_true fun hrunning => hready ?_
          exact JobState.isReady_of_isRunning (hunbroken.lasting job) hfit hsettled hrunning

/-- Behind a settled gate a worker is played to its end. -/
theorem not_running_of_finish (job : Job) (w : Nat) {s : Session} (hunbroken : s.state.Unbroken)
    (hfit : s.state.Fit) (hsettled : s.state.gate.wait?.isSome = true) :
    ((s.finish job [] w).state.phase w).isRunning = false :=
  not_running_of_play hunbroken hfit hsettled (s.state.effortOf_lt_budget w _)

end Session

end Elementwise
