import Elementwise.Proofs.Job.Exclusion

/-!
The workers of a job do not block each other for ever. The lock of a deque is held while just one
worker is inside, which needs nobody else to get out again; and nobody is inside while it calls the
kernel or waits at the gate, nor when its run is over, even if a call has unwound.
-/

namespace Elementwise

namespace Interleaving

variable {job : Job} {v : Interleaving} {w q : Nat}

/-- A worker whose run is not over can take a step, and not just one that fails an exchange. -/
def Advances (job : Job) (v : Interleaving) (w : Nat) : Prop :=
  (v.state.phase w).isRunning = true ∧ ∃ v', v.step job w false = some v' ∧
    ∀ exchange, v.attempt? w = some exchange → v'.exchanges = v.exchanges ++ [exchange]

theorem Operation.advances {v' : Interleaving} (h : Operation v w q v')
    (haborted : v.state.aborted = none) (job : Job) : v.Advances job w := by
  refine ⟨?_, v', h.step haborted job, fun exchange hattempt => ?_⟩
  · cases h with
    | acquire haccess | read haccess | write haccess => exact Phase.isRunning_of_access haccess
    | release hworker haccess =>
        rw [JobState.phase_eq hworker]
        exact Phase.isRunning_of_access haccess
  · cases h with
    | acquire haccess hdeque hstage =>
        simp only [attempt?, haccess, hstage] at hattempt
        cases hattempt
        rfl
    | read haccess hdeque hstage | write haccess hdeque hstage =>
        simp only [attempt?, haccess, hstage] at hattempt
        cases hattempt
    | release hworker haccess hdeque hstage =>
        simp only [attempt?, JobState.phase_eq hworker, haccess, hstage] at hattempt
        cases hattempt
        rfl

namespace Sound

/-- A worker that does not operate on a deque waits for nothing but the gate. -/
theorem advances_of_quiet (h : v.Sound) (hsettled : v.state.gate.wait?.isSome = true)
    (hrunning : (v.state.phase w).isRunning = true)
    (hquiet : (v.state.phase w).access? w = none) : v.Advances job w := by
  have hready : v.state.isReady w = true := by
    rw [← Job.isReady_of_unseen (JobState.unseen_freed w) hquiet]
    exact JobState.isReady_of_isRunning ((JobState.unbroken_freed h.aborted).lasting job)
      (JobState.fit_freed.mpr h.fit) hsettled hrunning
  refine ⟨hrunning, { v with state := job.advance v.state w }, ?_, fun exchange hattempt => ?_⟩
  · rw [step_of_quiet hquiet, Job.step, if_pos hready]
    rfl
  · rw [attempt?, hquiet] at hattempt
    cases hattempt

/-- A worker that is inside a deque gets on with its operation whatever the others do. -/
theorem advances_of_inside (h : v.Sound) (hinside : v.inside? w = some q) : v.Advances job w := by
  obtain ⟨hstage, access, haccess⟩ := isInside_of_inside? hinside
  obtain ⟨deque, hdeque⟩ := h.exists_deque haccess
  cases hcase : v.stages w with
  | reading => exact (Operation.read haccess hdeque hcase).advances h.aborted job
  | writing seen =>
      obtain ⟨found, rest, happly⟩ := Phase.exists_apply haccess seen
      exact (Operation.write haccess hdeque hcase happly).advances h.aborted job
  | leaving taken =>
      have htaking := h.taking w
      rw [hcase] at htaking
      rcases taken with found | span
      · obtain ⟨worker, hworker, haccess⟩ := JobState.exists_worker_of_access haccess
        rcases h.locks q deque hdeque with ⟨-, hnobody⟩ | ⟨hlock, -⟩
        · exact absurd hinside (hnobody w)
        · exact (Operation.release hworker haccess hdeque hcase hlock).advances h.aborted job
      · cases htaking
  | _ =>
      rw [hcase] at hstage
      cases hstage

theorem advances_of_free (h : v.Sound) {access : Access} {deque : Deque}
    (haccess : (v.state.phase w).access? w = some (q, access))
    (hdeque : v.state.deques[q]? = some deque) (hlock : deque.lock = ⟨Lock.free⟩)
    (hout : v.inside? w ≠ some q) : v.Advances job w := by
  have htaking := h.taking w
  cases hcase : v.stages w with
  | entering => exact (Operation.acquire haccess hdeque hcase hlock).advances h.aborted job
  | reading | writing | leaving => exact absurd (inside?_of_stage haccess hcase rfl) hout
  | _ =>
      rw [hcase] at htaking
      cases htaking

theorem exists_advances (h : v.Sound) (hsettled : v.state.gate.wait?.isSome = true)
    (hrunning : (v.state.phase w).isRunning = true) : ∃ u, v.Advances job u := by
  rcases haccess : (v.state.phase w).access? w with - | ⟨q, access⟩
  · exact ⟨w, h.advances_of_quiet hsettled hrunning haccess⟩
  · obtain ⟨deque, hdeque⟩ := h.exists_deque haccess
    -- whoever wants in can acquire a free lock, and whoever is inside a deque needs none
    rcases h.locks q _ hdeque with ⟨hfree, hnobody⟩ | ⟨-, u, hinside⟩
    · exact ⟨w, h.advances_of_free haccess hdeque hfree (hnobody w)⟩
    · exact ⟨u, h.advances_of_inside hinside⟩

theorem isHeld_iff (h : v.Sound) {deque : Deque} (hdeque : v.state.deques[q]? = some deque) :
    deque.lock.isHeld = true ↔
      ∃! u, (v.state.phase u).isRunning = true ∧ v.inside? u = some q := by
  rcases h.locks q deque hdeque with ⟨hlock, hnobody⟩ | ⟨hlock, u, hinside⟩
  · refine iff_of_false (by rw [hlock]; decide) ?_
    rintro ⟨u, ⟨-, hinside⟩, -⟩
    exact hnobody u hinside
  · refine iff_of_true (by rw [hlock]; decide) ⟨u, ⟨?_, hinside⟩, ?_⟩
    · obtain ⟨-, access, haccess⟩ := isInside_of_inside? hinside
      exact Phase.isRunning_of_access haccess
    · exact fun t ⟨_, ht⟩ => h.exclusive t u q ht hinside

theorem not_inside_of_quiet (h : v.Sound) (hquiet : (v.state.phase w).access? w = none) :
    v.inside? w ≠ some q := by
  rw [inside?_of_entering (h.outside w hquiet)]
  exact (Option.some_ne_none q).symm

end Sound

/-- At all times a worker holds the lock of one deque at most, and of none while it calls the
kernel, waits at the gate or is over, or does anything else that is no operation on a deque; a lock
is held just if one worker, whose run is not over, is inside the deque. So behind a settled gate
somebody can go on as long as somebody's run is not over. -/
theorem deadlock_free (job : Job) (memory : Memory) (gate : Gate) (spans : List Span)
    (events : List Event) {v : Interleaving}
    (hfollow : follow job events { state := .initial memory gate spans } = some v) :
    (∀ w q q', v.Holds w q → v.Holds w q' → q = q') ∧
      (∀ w, (v.state.phase w).access? w = none → ∀ q, ¬ v.Holds w q) ∧
      (∀ q deque, v.state.deques[q]? = some deque →
        (deque.lock.isHeld = true ↔
          ∃! w, (v.state.phase w).isRunning = true ∧ v.inside? w = some q)) ∧
      (v.state.gate.wait?.isSome = true → ∀ w, (v.state.phase w).isRunning = true →
        ∃ u, v.Advances job u) := by
  have hsound := (Sound.initial memory gate spans).follow hfollow
  refine ⟨fun w q q' hq hq' => ?_, fun w hquiet q hq => ?_, fun q deque hdeque => ?_,
    fun hsettled w hrunning => ?_⟩
  · rw [hsound.holds_iff] at hq hq'
    exact Option.some.inj (hq.symm.trans hq')
  · exact hsound.not_inside_of_quiet hquiet (hsound.holds_iff.mp hq)
  · exact hsound.isHeld_iff hdeque
  · exact hsound.exists_advances hsettled hrunning

/-- A call of worker 2 has unwound, and worker 1 waits for the lock of its own deque, which worker 0
has acquired. -/
theorem deadlock_free_of_three :
    ∃ v, follow (Job.reversedSum fun _ => some (.kernelFailure 1))
        ([.start 0, .start 1, .start 2, .settle 3] ++
          ([2, 2, 2, 2, 2, 2, 2, 0, 0, 0, 0, 0, 0, 1].map fun w => .step w false))
        { state := .initial .reversedSum ⟨3, .abort, .pending⟩ [⟨0, 0⟩, ⟨0, 1⟩, ⟨1, 2⟩] } = some v ∧
      v.state.phase 2 = .dead (some 1) (.kernelFailure 1) ∧ (∀ q, ¬ v.Holds 2 q) ∧
      v.attempt? 1 = some ⟨1, 1, .acquire⟩ ∧ v.Holds 0 1 ∧ (∀ q, v.Holds 0 q → q = 1) ∧
      ∃ u, v.Advances (Job.reversedSum fun _ => some (.kernelFailure 1)) u := by
  have hrun : ∃ v, follow (Job.reversedSum fun _ => some (.kernelFailure 1))
        ([.start 0, .start 1, .start 2, .settle 3] ++
          ([2, 2, 2, 2, 2, 2, 2, 0, 0, 0, 0, 0, 0, 1].map fun w => .step w false))
        { state := .initial .reversedSum ⟨3, .abort, .pending⟩ [⟨0, 0⟩, ⟨0, 1⟩, ⟨1, 2⟩] } = some v ∧
      v.state.phase 2 = .dead (some 1) (.kernelFailure 1) ∧
      v.attempt? 1 = some ⟨1, 1, .acquire⟩ ∧ v.Holds 0 1 ∧
      v.state.gate.wait?.isSome = true ∧ (v.state.phase 1).isRunning = true :=
    ⟨_, rfl, by decide, by decide, by unfold Holds; decide, by decide, by decide⟩
  obtain ⟨v, hfollow, hdead, hattempt, hholds, hsettled, hrunning⟩ := hrun
  obtain ⟨hone, houtside, -, hadvances⟩ := deadlock_free _ _ _ _ _ hfollow
  exact ⟨v, hfollow, hdead, houtside 2 (by rw [hdead]; rfl), hattempt, hholds,
    fun q hq => hone 0 q 1 hq hholds, hadvances hsettled 1 hrunning⟩

end Interleaving

end Elementwise
