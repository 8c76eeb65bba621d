import Elementwise.Proofs.Job.State

/-!
What one step of a worker does to a job. A step is one of seven moves, and the invariants of a job
are proved move by move.
-/

namespace Elementwise

namespace Phase

theorem sweepFrom_induction {motive : Phase → Prop}
    (hsweeping : ∀ peer found, motive (sweeping peer found)) (hfinished : motive finished)
    (self count peer : Nat) (found : Bool) : motive (sweepFrom self count peer found) := by
  simp only [sweepFrom]
  generalize (if peer = self then peer + 1 else peer) = next
  split
  · exact hsweeping next found
  · split
    · exact hsweeping _ false
    · exact hfinished

/-- A worker that operates on a deque takes an index from it, if there is one. -/
theorem exists_apply {phase : Phase} {w q : Nat} {access : Access}
    (haccess : phase.access? w = some (q, access)) (span : Span) :
    ∃ found rest, access.apply span = (.index found, rest) := by
  cases phase with
  | draining | sweeping =>
      cases haccess
      exact ⟨_, _, rfl⟩
  | _ => cases haccess

end Phase

namespace Job

/-- The ways in which a step of a worker changes a job, and what is noted of it. -/
inductive Move (job : Job) (s : JobState) (w : Nat) : Option Deed → JobState → Prop where
  | enter {worker : Worker} {told : Bool} (hworker : s.workers[w]? = some worker)
      (hphase : worker.phase = .atGate) (htold : s.gate.wait? = some told) :
      Move job s w none (s.setPhase w worker (if told then .draining else .finished))
  | take {worker : Worker} {q : Nat} {access : Access} {deque : Deque} {found : Option Nat}
      {rest : Span} (hworker : s.workers[w]? = some worker)
      (haccess : worker.phase.access? w = some (q, access)) (hdeque : s.deques[q]? = some deque)
      (hlock : deque.lock = ⟨Lock.free⟩)
      (happly : access.apply deque.bounds = (.index found, rest)) :
      Move job s w (some (.accessed w q access found))
        ({ s with deques := s.deques.setIfInBounds q { deque with bounds := rest } }.setPhase w
          worker (worker.phase.receive w s.workers.size found))
  | breach {worker : Worker} {q : Nat} {access : Access} {deque : Deque}
      (hworker : s.workers[w]? = some worker)
      (haccess : worker.phase.access? w = some (q, access)) (hdeque : s.deques[q]? = some deque)
      (hlock : deque.lock = ⟨Lock.poisoned⟩) :
      Move job s w none (job.breach s w worker (.lockProtocol Lock.poisoned))
  | call {worker : Worker} {index : Nat} {origin : Origin} (hworker : s.workers[w]? = some worker)
      (hphase : worker.phase = .holding index origin) :
      Move job s w none
        ({ s with calls := s.calls.push ⟨w, index⟩ }.setPhase w worker (.calling index origin))
  | unwind {worker : Worker} {index : Nat} {origin : Origin} {cause : Payload}
      (hworker : s.workers[w]? = some worker) (hphase : worker.phase = .calling index origin)
      (hcause : job.unwinding index = some cause) :
      Move job s w (some (.unwound w index)) (s.setPhase w worker (.dead (some index) cause))
  | read {worker : Worker} {index : Nat} {origin : Origin} (hworker : s.workers[w]? = some worker)
      (hphase : worker.phase = .calling index origin) (hcause : job.unwinding index = none) :
      Move job s w none
        (s.setPhase w worker (.storing index origin (job.binding.evaluate s.memory index)))
  | store {worker : Worker} {index : Nat} {origin : Origin} {bits : UInt64}
      (hworker : s.workers[w]? = some worker) (hphase : worker.phase = .storing index origin bits) :
      Move job s w (some (.completed w index))
        ({ s with memory := job.binding.scatter s.memory index bits }.setPhase w
          { worker with tally := worker.tally.add origin } (.resume w s.workers.size origin))

section

variable {job : Job} {s s' : JobState} {w : Nat}

theorem perform_of_free {deque : Deque} (hlock : deque.lock = ⟨Lock.free⟩) (access : Access) :
    deque.perform access =
      (.returned (access.apply deque.bounds).1,
        { deque with bounds := (access.apply deque.bounds).2 }) := by
  obtain ⟨lock, bounds⟩ := deque
  subst hlock
  rw [Deque.perform_free]

theorem perform_of_poisoned {deque : Deque} (hlock : deque.lock = ⟨Lock.poisoned⟩)
    (access : Access) :
    deque.perform access = (.breached (.lockProtocol Lock.poisoned), deque) := by
  obtain ⟨lock, bounds⟩ := deque
  subst hlock
  rw [Deque.perform_poisoned]

theorem isReady_of_step (h : job.step s w = some s') :
    s.isReady w = true ∧ s' = job.advance s w := by
  unfold step at h
  split at h
  · rename_i hready
    exact ⟨hready, (Option.some.inj h).symm⟩
  · cases h

/-- A worker that is about to operate on a deque with a free lock can do so. -/
theorem step_of_free (haborted : s.aborted = none) {worker : Worker} {q : Nat} {access : Access}
    {deque : Deque} {found : Option Nat} {rest : Span} (hworker : s.workers[w]? = some worker)
    (haccess : worker.phase.access? w = some (q, access)) (hdeque : s.deques[q]? = some deque)
    (hlock : deque.lock = ⟨Lock.free⟩)
    (happly : access.apply deque.bounds = (.index found, rest)) :
    job.step s w =
      some ({ s with deques := s.deques.setIfInBounds q { deque with bounds := rest } }.setPhase w
        worker (worker.phase.receive w s.workers.size found)) := by
  have hready : s.isAccessible q = true := by
    simp only [JobState.isAccessible, hdeque, hlock]
    rfl
  cases hphase : worker.phase with
  | draining | sweeping =>
      rw [hphase] at haccess
      cases haccess
      simp [step, JobState.isReady, JobState.phase_eq hworker, hphase, haborted, hready, advance,
        hworker, operate, hdeque, perform_of_free hlock, happly]
  | _ =>
      rw [hphase] at haccess
      cases haccess

/-- The step of a worker that is about to operate on a deque. -/
theorem move_of_access (hunheld : s.Unheld) {worker : Worker}
    (hworker : s.workers[w]? = some worker) {q : Nat} {access : Access}
    (haccess : worker.phase.access? w = some (q, access))
    (hready : s.isAccessible q = true)
    (hdeed : job.deed? s w = accessDeed? s w q access)
    (hstep : s' = job.operate s w worker q access) : Move job s w (job.deed? s w) s' := by
  cases hdeque : s.deques[q]? with
  | none => simp [JobState.isAccessible, hdeque] at hready
  | some deque =>
      obtain ⟨found, rest, happly⟩ := Phase.exists_apply haccess deque.bounds
      rw [hdeed, hstep]
      rcases hunheld deque (Array.mem_of_getElem? hdeque) with hlock | hlock
      · simp only [accessDeed?, operate, hdeque, perform_of_free hlock, happly, Option.bind_some]
        exact .take hworker haccess hdeque hlock happly
      · simp only [accessDeed?, operate, hdeque, perform_of_poisoned hlock, Option.bind_some,
          setIfInBounds_self hdeque]
        exact .breach hworker haccess hdeque hlock

/-- Every step of a job is one of the moves, and is noted as such. -/
theorem move_of_step (hunheld : s.Unheld) (h : job.step s w = some s') :
    Move job s w (job.deed? s w) s' := by
  obtain ⟨hready, hstep⟩ := isReady_of_step h
  simp only [JobState.isReady, Bool.and_eq_true] at hready
  cases hworker : s.workers[w]? with
  | none => simp [JobState.phase_of_none hworker] at hready
  | some worker =>
      have hphase := JobState.phase_eq hworker
      rw [hphase] at hready
      obtain ⟨-, hready⟩ := hready
      simp only [advance, hworker] at hstep
      cases hcase : worker.phase with
      | idle | finished | dead => simp [hcase] at hready
      | atGate =>
          simp only [hcase] at hready hstep
          obtain ⟨told, htold⟩ := Option.isSome_iff_exists.mp hready
          simp only [htold] at hstep
          have hdeed : job.deed? s w = none := by simp [deed?, hphase, hcase]
          rw [hdeed, hstep]
          exact .enter hworker hcase htold
      | draining =>
          simp only [hcase] at hready hstep
          refine move_of_access hunheld hworker (by rw [hcase]; rfl) hready ?_ hstep
          simp only [deed?, hphase, hcase]
      | sweeping peer found =>
          simp only [hcase] at hready hstep
          refine move_of_access hunheld hworker (by rw [hcase]; rfl) hready ?_ hstep
          simp only [deed?, hphase, hcase]
      | holding index origin =>
          simp only [hcase] at hstep
          have hdeed : job.deed? s w = none := by simp [deed?, hphase, hcase]
          rw [hdeed, hstep]
          exact .call hworker hcase
      | calling index origin =>
          simp only [hcase] at hstep
          cases hcause : job.unwinding index with
          | none =>
              have hdeed : job.deed? s w = none := by simp [deed?, hphase, hcase, hcause]
              simp only [hcause] at hstep
              rw [hdeed, hstep]
              exact .read hworker hcase hcause
          | some cause =>
              have hdeed : job.deed? s w = some (.unwound w index) := by
                simp [deed?, hphase, hcase, hcause]
              simp only [hcause] at hstep
              rw [hdeed, hstep]
              exact .unwind hworker hcase hcause
      | storing index origin bits =>
          simp only [hcase] at hstep
          have hdeed : job.deed? s w = some (.completed w index) := by
            simp [deed?, hphase, hcase]
          rw [hdeed, hstep]
          exact .store hworker hcase

namespace Move

variable {deed : Option Deed}

theorem size_workers (h : Move job s w deed s') : s'.workers.size = s.workers.size := by
  cases h with
  | breach => unfold Job.breach; split <;> simp
  | _ => simp

theorem size_deques (h : Move job s w deed s') : s'.deques.size = s.deques.size := by
  cases h with
  | breach => unfold Job.breach; split <;> simp
  | _ => simp

theorem gate_eq (h : Move job s w deed s') : s'.gate = s.gate := by
  cases h with
  | breach => unfold Job.breach; split <;> simp
  | _ => simp

theorem locks_eq (h : Move job s w deed s') :
    s'.deques.map Deque.lock = s.deques.map Deque.lock := by
  cases h with
  | @take worker q access deque found rest hworker haccess hdeque =>
      obtain ⟨hq, hdeque⟩ := Array.getElem?_eq_some_iff.mp hdeque
      refine Array.ext_getElem? fun i => ?_
      by_cases hi : q = i
      · subst hi
        simp [hdeque, hq]
      · simp [Array.getElem?_setIfInBounds_ne hi]
  | breach => unfold Job.breach; split <;> simp
  | _ => simp

theorem exists_lock_eq (h : Move job s w deed s') {deque : Deque} (hdeque : deque ∈ s'.deques) :
    ∃ before ∈ s.deques, before.lock = deque.lock := by
  have hlock : deque.lock ∈ s.deques.map Deque.lock := by
    rw [← h.locks_eq]
    exact Array.mem_map_of_mem hdeque
  exact Array.mem_map.mp hlock

theorem unheld (h : Move job s w deed s') (hunheld : s.Unheld) : s'.Unheld := by
  intro deque hdeque
  obtain ⟨before, hbefore, heq⟩ := h.exists_lock_eq hdeque
  rw [← heq]
  exact hunheld before hbefore

theorem phase_of_ne (h : Move job s w deed s') {v : Nat} (hv : v ≠ w) : s'.phase v = s.phase v := by
  cases h with
  | breach =>
      unfold Job.breach
      split
      · rfl
      · exact JobState.phase_setPhase_of_ne hv _ _
  | _ => exact JobState.phase_setPhase_of_ne hv _ _

theorem isRunning (h : Move job s w deed s') : (s.phase w).isRunning = true := by
  have haccess {phase : Phase} {q : Nat} {access : Access}
      (h : phase.access? w = some (q, access)) : phase.isRunning = true := by
    cases phase <;> first | rfl | simp [Phase.access?] at h
  cases h with
  | enter hworker hphase => rw [JobState.phase_eq hworker, hphase]; rfl
  | take hworker h => rw [JobState.phase_eq hworker]; exact haccess h
  | breach hworker h => rw [JobState.phase_eq hworker]; exact haccess h
  | call hworker hphase => rw [JobState.phase_eq hworker, hphase]; rfl
  | unwind hworker hphase => rw [JobState.phase_eq hworker, hphase]; rfl
  | read hworker hphase => rw [JobState.phase_eq hworker, hphase]; rfl
  | store hworker hphase => rw [JobState.phase_eq hworker, hphase]; rfl

end Move

/-- A property of courses that holds on whatever happens next. -/
structure Keeps (job : Job) (property : Course → Prop) : Prop where
  unheld : ∀ c, property c → c.state.Unheld
  move : ∀ c w deed s', property c → Move job c.state w deed s' → property (c.note deed s')
  start : ∀ c w, property c → (c.state.phase w).isRunning = false →
    property { c with state := c.state.start w }
  settle : ∀ c started, property c → property { c with state := c.state.settle started }

theorem keeps_unheld (job : Job) : job.Keeps fun c => c.state.Unheld where
  unheld _ h := h
  move _ _ _ _ h hmove := hmove.unheld h
  start c w h _ := by
    unfold JobState.Unheld
    rw [JobState.deques_start]
    exact h
  settle _ _ h := h

theorem Keeps.occur {property : Course → Prop} (hkeeps : Keeps job property) {c c' : Course}
    (h : property c) {event : Event} (hoccur : job.occur c event = some c') : property c' := by
  cases event with
  | start w =>
      simp only [Job.occur] at hoccur
      split at hoccur
      · cases hoccur
      · rename_i hidle
        cases hoccur
        exact hkeeps.start c w h (by simpa using hidle)
  | settle started =>
      cases hoccur
      exact hkeeps.settle c started h
  | step w =>
      obtain ⟨s', hstep, rfl⟩ := Option.map_eq_some_iff.mp hoccur
      exact hkeeps.move c w _ s' h (move_of_step (hkeeps.unheld c h) hstep)

theorem Keeps.follow {property : Course → Prop} (hkeeps : Keeps job property) {c c' : Course}
    (h : property c) {events : List Event} (hfollow : job.follow events c = some c') :
    property c' := by
  induction events generalizing c with
  | nil =>
      cases hfollow
      exact h
  | cons event rest ih =>
      obtain ⟨middle, hoccur, hrest⟩ := Option.bind_eq_some_iff.mp hfollow
      exact ih (hkeeps.occur h hoccur) hrest

end

end Job

end Elementwise
