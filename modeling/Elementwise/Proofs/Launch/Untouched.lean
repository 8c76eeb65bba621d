import Elementwise.Proofs.Launch.Turns

/-!
Launches that have not got through the gate. As long as the gate is not open a worker that has
started waits or leaves, so nothing is taken from the deques, called, counted or written.
-/

namespace Elementwise

/-- A job on which nobody has done anything. -/
structure Course.Untouched (memory : Memory) (spans : List Span) (c : Course) : Prop where
  deeds : c.deeds = []
  calls : c.state.calls = #[]
  bounds : c.state.deques.toList.map Deque.bounds = spans
  tallies : ∀ w, c.state.tally w = {}
  memory : c.state.memory = memory

theorem Course.Untouched.initial (memory : Memory) (gate : Gate) (spans : List Span) :
    Untouched memory spans { state := .initial memory gate spans } where
  deeds := rfl
  calls := rfl
  bounds := by
    simp only [JobState.initial, List.map_map]
    exact List.map_id spans
  tallies := JobState.tally_initial memory gate spans
  memory := rfl

/-- Whether the phase is one of a worker that has not got through the gate. -/
def Phase.isOutside : Phase → Bool
  | idle | atGate | finished => true
  | _ => false

namespace Job.Move

variable {job : Job} {s s' : JobState} {w : Nat} {deed : Option Deed}

/-- The step of a worker in front of a gate that is not open: it is told to leave, and leaves. -/
theorem leave (h : Move job s w deed s') (houtside : (s.phase w).isOutside = true)
    (hclosed : s.gate.isOpen = false) :
    deed = none ∧ ∃ worker, s.workers[w]? = some worker ∧ s' = s.setPhase w worker .finished := by
  have hgate {worker : Worker} (hworker : s.workers[w]? = some worker) :
      worker.phase = .atGate := by
    have hrunning := h.isRunning
    rw [JobState.phase_eq hworker] at houtside hrunning
    cases hphase : worker.phase with
    | atGate => rfl
    | idle | finished =>
        rw [hphase] at hrunning
        cases hrunning
    | _ =>
        rw [hphase] at houtside
        cases houtside
  cases h with
  | @enter worker told hworker hphase htold =>
      have htold : told = false := by
        cases hstate : s.gate.state <;> simp [Gate.isOpen, Gate.wait?, hstate] at hclosed htold
        exact htold
      refine ⟨rfl, worker, hworker, ?_⟩
      rw [htold]
      rfl
  | take hworker haccess | breach hworker haccess =>
      rw [hgate hworker] at haccess
      cases haccess
  | call hworker hphase | unwind hworker hphase | read hworker hphase | store hworker hphase =>
      rw [hgate hworker] at hphase
      cases hphase

end Job.Move

/-- Nobody has got through the gate, and nothing has been done. -/
structure Course.Withheld (memory : Memory) (spans : List Span) (c : Course) : Prop where
  untouched : c.Untouched memory spans
  outside : ∀ w, (c.state.phase w).isOutside = true

namespace Course.Withheld

variable {memory : Memory} {spans : List Span} {c c' : Course} {job : Job}

theorem initial (memory : Memory) (gate : Gate) (spans : List Span) :
    Withheld memory spans { state := .initial memory gate spans } := by
  refine ⟨.initial memory gate spans, ?_⟩
  intro w
  rw [JobState.phase_initial]
  rfl

theorem move (h : c.Withheld memory spans) (hclosed : c.state.gate.isOpen = false) {w : Nat}
    {deed : Option Deed} {s' : JobState} (hmove : Job.Move job c.state w deed s') :
    (c.note deed s').Withheld memory spans := by
  have hothers (v : Nat) (hv : v ≠ w) := hmove.phase_of_ne hv
  obtain ⟨rfl, worker, hworker, rfl⟩ := hmove.leave (h.outside w) hclosed
  constructor
  · exact {
      deeds := (List.append_nil c.deeds).trans h.untouched.deeds
      calls := h.untouched.calls
      bounds := h.untouched.bounds
      tallies := fun v => (JobState.tally_setPhase hworker _ v).trans (h.untouched.tallies v)
      memory := h.untouched.memory }
  · intro v
    rw [Course.state_note]
    by_cases hv : v = w
    · rw [hv, JobState.phase_setPhase_self (JobState.lt_size hworker)]
      rfl
    · rw [hothers v hv]
      exact h.outside v

theorem start (h : c.Withheld memory spans) (w : Nat) :
    Withheld memory spans { c with state := c.state.start w } := by
  constructor
  · exact {
      deeds := h.untouched.deeds
      calls := (JobState.calls_start ..).trans h.untouched.calls
      bounds := by
        rw [JobState.deques_start]
        exact h.untouched.bounds
      tallies := fun v => (JobState.tally_start ..).trans (h.untouched.tallies v)
      memory := (JobState.memory_start ..).trans h.untouched.memory }
  · intro v
    rcases c.state.phase_start w v with hsame | ⟨-, hgate⟩
    · rw [hsame]
      exact h.outside v
    · rw [hgate]
      rfl

theorem settle (h : c.Withheld memory spans) (started : Nat) :
    Withheld memory spans { c with state := c.state.settle started } where
  untouched := {
    deeds := h.untouched.deeds
    calls := h.untouched.calls
    bounds := h.untouched.bounds
    tallies := h.untouched.tallies
    memory := h.untouched.memory }
  outside := h.outside

theorem occur (h : c.Withheld memory spans) (hclosed : c.state.gate.isOpen = false)
    (hunheld : c.state.Unheld) {event : Event} (hoccur : job.occur c event = some c') :
    c'.Withheld memory spans := by
  cases event with
  | start w =>
      simp only [Job.occur] at hoccur
      split at hoccur
      · cases hoccur
      · cases hoccur
        exact h.start w
  | settle started =>
      cases hoccur
      exact h.settle started
  | step w =>
      obtain ⟨s', hstep, rfl⟩ := Option.map_eq_some_iff.mp hoccur
      exact h.move hclosed (Job.move_of_step hunheld hstep)

theorem losses_eq_nil (h : c.Withheld memory spans) (members : List Nat) :
    c.state.losses members = [] := by
  refine List.eq_nil_iff_forall_not_mem.mpr ?_
  rintro ⟨w, cause⟩ hlost
  obtain ⟨held, hdead⟩ := JobState.dead_of_mem_losses hlost
  have houtside := h.outside w
  rw [hdead] at houtside
  cases houtside

end Course.Withheld

namespace Launching

variable {job : Job} {workers : Nat} {team : Team workers} {gate : Gate} {l l' : Launching}

/-- A gate that is open stays open, since it is settled once. -/
theorem Stage.closed_of_turn (h : l.Stage team gate) (hpending : gate.state = .pending)
    (hunheld : l.course.state.Unheld) {turn : Turn} (hturn : l.turn job turn = some l')
    (hclosed : l'.course.state.gate.isOpen = false) : l.course.state.gate.isOpen = false := by
  cases h with
  | gathering made rest refused _ _ hgate =>
      rw [hgate, Gate.isOpen, hpending]
      rfl
  | joining done rest _ htodo =>
      suffices hsame : l'.course.state.gate = l.course.state.gate by
        rw [← hsame]
        exact hclosed
      cases turn with
      | worker w =>
          obtain ⟨course, hoccur, rfl⟩ := Option.map_eq_some_iff.mp hturn
          obtain ⟨s', hstep, rfl⟩ := Option.map_eq_some_iff.mp hoccur
          exact (Job.move_of_step hunheld hstep).gate_eq
      | launcher =>
          have hcases := proceed_cases hturn
          rw [htodo] at hcases
          cases rest with
          | nil => obtain ⟨_, ⟨⟩, -⟩ | ⟨_, ⟨⟩, -⟩ | ⟨_, ⟨⟩, -⟩ | ⟨_, _, ⟨⟩, -⟩ := hcases
          | cons w rest =>
              obtain ⟨_, ⟨⟩, -⟩ | ⟨_, ⟨⟩, -⟩ | ⟨_, ⟨⟩, -⟩ | ⟨_, _, ⟨⟩, -, -, hcourse⟩ := hcases
              rw [hcourse]

theorem withheld_of_run {memory : Memory} {spans : List Span} (h : l.Stage team gate)
    (hpending : gate.state = .pending) (hunheld : l.course.state.Unheld)
    (hwithheld : l.course.Withheld memory spans) {turns : List Turn}
    (hrun : l.run job turns = some l') (hclosed : l'.course.state.gate.isOpen = false) :
    l'.course.Withheld memory spans := by
  refine (run_induction (motive := fun l => l.Stage team gate ∧ l.course.state.Unheld ∧
    (l.course.state.gate.isOpen = false → l.course.Withheld memory spans))
    ⟨h, hunheld, fun _ => hwithheld⟩ ?_ hrun).2.2 hclosed
  rintro l l' turn ⟨h, hunheld, hwithheld⟩ hturn
  refine ⟨h.turn hpending hunheld hturn, keeps_turn (Job.keeps_unheld job) hunheld hturn, ?_⟩
  intro hclosed
  have hbefore := h.closed_of_turn hpending hunheld hturn hclosed
  rcases occur_of_turn hturn with hsame | ⟨event, hoccur⟩
  · rw [hsame]
    exact hwithheld hbefore
  · exact (hwithheld hbefore).occur hbefore hunheld hoccur

end Launching

end Elementwise
