import Elementwise.Proofs.Job.Move
import Mathlib.Tactic.ByContra

/-!
What a worker knows of the deques from its own course. A deque that was found empty stays empty, so
a worker that went through a whole sweep without a success leaves nothing behind.
-/

namespace Elementwise

namespace Access

theorem apply_index {access : Access} {span rest : Span} {found : Option Nat}
    (h : access.apply span = (.index found, rest)) :
    (found = none ↔ span.upper ≤ span.lower) ∧ (found = none → rest = span) := by
  cases access with
  | takeFront =>
      simp only [apply, Span.takeFront] at h
      split at h <;> cases h <;> simp <;> omega
  | takeBack =>
      simp only [apply, Span.takeBack] at h
      split at h <;> cases h <;> simp <;> omega
  | inspect => simp [apply] at h

end Access

/-- Nothing is left in a deque. -/
def JobState.EmptyAt (s : JobState) (q : Nat) : Prop :=
  ∀ deque, s.deques[q]? = some deque → deque.bounds.upper ≤ deque.bounds.lower

/-- What the phase of a worker says about the deques: its own is empty once it sweeps, those it has
visited in a sweep without success are, and all are when it has finished. -/
def Phase.Swept (s : JobState) (w : Nat) : Phase → Prop
  | sweeping peer found => s.EmptyAt w ∧ (found = false → ∀ q < peer, s.EmptyAt q)
  | holding _ (.peer _) | calling _ (.peer _) | storing _ (.peer _) _ => s.EmptyAt w
  | finished => ∀ q, s.EmptyAt q
  | _ => True

structure JobState.Swept (s : JobState) : Prop where
  sizes : s.deques.size = s.workers.size
  phases : ∀ w, (s.phase w).Swept s w

theorem Phase.Swept.mono {s s' : JobState} {w : Nat} {phase : Phase} (h : phase.Swept s w)
    (hempty : ∀ q, s.EmptyAt q → s'.EmptyAt q) : phase.Swept s' w := by
  cases phase with
  | sweeping peer found =>
      obtain ⟨hown, hpeers⟩ := h
      exact ⟨hempty w hown, fun hfound q hq => hempty q (hpeers hfound q hq)⟩
  | holding index origin | calling index origin =>
      cases origin with
      | own => trivial
      | peer peer => exact hempty w h
  | storing index origin bits =>
      cases origin with
      | own => trivial
      | peer peer => exact hempty w h
  | finished => exact fun q => hempty q (h q)
  | idle | atGate | draining | dead => trivial

/-- A sweep goes on with what it has found out, and ends where it has found nothing anywhere. -/
theorem Phase.swept_sweepFrom {s : JobState} {w peer : Nat} {found : Bool} (hown : s.EmptyAt w)
    (hpeers : found = false → ∀ q < peer, s.EmptyAt q) :
    (sweepFrom w s.deques.size peer found).Swept s w := by
  simp only [sweepFrom]
  have hnext : found = false → ∀ q < (if peer = w then peer + 1 else peer), s.EmptyAt q := by
    intro hfound q hq
    by_cases hself : q = w
    · rw [hself]
      exact hown
    · refine hpeers hfound q ?_
      split at hq <;> omega
  generalize (if peer = w then peer + 1 else peer) = next at hnext
  split
  · exact ⟨hown, hnext⟩
  · rename_i hend
    split
    · refine ⟨hown, fun _ q hq => ?_⟩
      have hself : q = w := by split at hq <;> omega
      rw [hself]
      exact hown
    · rename_i hfound
      intro q deque hdeque
      have hq := (Array.getElem?_eq_some_iff.mp hdeque).1
      exact hnext (by simpa using hfound) q (by omega) deque hdeque

namespace Job.Move

variable {job : Job} {s s' : JobState} {w : Nat} {deed : Option Deed}

theorem emptyAt (h : Move job s w deed s') {q : Nat} (hempty : s.EmptyAt q) : s'.EmptyAt q := by
  cases h with
  | @take worker p access deque found rest hworker haccess hdeque hlock happly =>
      intro after hafter
      by_cases hq : p = q
      · subst hq
        have hp := (Array.getElem?_eq_some_iff.mp hdeque).1
        have hsame : after = { deque with bounds := rest } := by
          simpa [hp] using hafter.symm
        obtain ⟨hnone, hrest⟩ := Access.apply_index happly
        rw [hsame, hrest (hnone.mpr (hempty deque hdeque))]
        exact hempty deque hdeque
      · refine hempty after ?_
        simpa [Array.getElem?_setIfInBounds_ne hq] using hafter
  | breach => unfold Job.breach; split <;> exact hempty
  | _ => exact hempty

theorem emptyAt_of_none {q : Nat} {access : Access} {deque : Deque} {rest : Span}
    (hdeque : s.deques[q]? = some deque)
    (happly : access.apply deque.bounds = (.index none, rest)) :
    s.EmptyAt q := by
  intro deque' hdeque'
  have hsame : deque = deque' := Option.some.inj (hdeque.symm.trans hdeque')
  rw [← hsame]
  exact (Access.apply_index happly).1.mp rfl

theorem swept_phase (h : Move job s w deed s') (hopen : s.gate.isOpen = true)
    (hsizes : s.deques.size = s.workers.size) (hswept : (s.phase w).Swept s w) :
    (s'.phase w).Swept s' w := by
  have hempty {q : Nat} : s.EmptyAt q → s'.EmptyAt q := h.emptyAt
  have hdeques := h.size_deques
  cases h with
  | @enter worker told hworker hphase htold =>
      have htrue : told = true := by
        cases hstate : s.gate.state <;> simp [Gate.isOpen, Gate.wait?, hstate] at hopen htold
        exact htold
      rw [JobState.phase_setPhase_self (by exact JobState.lt_size hworker), htrue]
      trivial
  | @take worker q access deque found rest hworker haccess hdeque hlock happly =>
      rw [JobState.phase_setPhase_self (by exact JobState.lt_size hworker), ← hsizes]
      rw [JobState.phase_eq hworker] at hswept
      rw [JobState.deques_setPhase] at hdeques
      cases hphase : worker.phase with
      | draining =>
          rw [hphase] at haccess
          cases haccess
          cases found with
          | none =>
              have hown := hempty (emptyAt_of_none hdeque happly)
              simp only [Phase.receive, ← hdeques]
              exact Phase.swept_sweepFrom hown fun _ _ hq => absurd hq (Nat.not_lt_zero _)
          | some index => trivial
      | sweeping peer seen =>
          rw [hphase] at haccess hswept
          cases haccess
          obtain ⟨hown, hpeers⟩ := hswept
          cases found with
          | none =>
              have hpeer := hempty (emptyAt_of_none hdeque happly)
              simp only [Phase.receive, ← hdeques]
              refine Phase.swept_sweepFrom (hempty hown) fun hseen p hp => ?_
              rcases Nat.lt_succ_iff_lt_or_eq.mp hp with hlt | heq
              · exact hempty (hpeers hseen p hlt)
              · rw [heq]
                exact hpeer
          | some index => exact hempty hown
      | _ => rw [hphase] at haccess; cases haccess
  | @breach worker q access deque hworker =>
      unfold Job.breach at hempty ⊢
      split
      · exact hswept.mono fun q hq => hq
      · rw [JobState.phase_setPhase_self (by exact JobState.lt_size hworker)]
        trivial
  | @call worker index origin hworker hphase =>
      rw [JobState.phase_setPhase_self (by exact JobState.lt_size hworker)]
      rw [JobState.phase_eq hworker, hphase] at hswept
      cases origin with
      | own => trivial
      | peer peer => exact hempty hswept
  | @unwind worker index origin cause hworker hphase =>
      rw [JobState.phase_setPhase_self (by exact JobState.lt_size hworker)]
      trivial
  | @read worker index origin hworker hphase =>
      rw [JobState.phase_setPhase_self (by exact JobState.lt_size hworker)]
      rw [JobState.phase_eq hworker, hphase] at hswept
      cases origin with
      | own => trivial
      | peer peer => exact hempty hswept
  | @store worker index origin bits hworker hphase =>
      rw [JobState.phase_setPhase_self (by exact JobState.lt_size hworker), ← hsizes]
      rw [JobState.phase_eq hworker, hphase] at hswept
      cases origin with
      | own => trivial
      | peer peer =>
          exact Phase.swept_sweepFrom (hempty hswept) fun hfound => absurd hfound (by simp)

theorem swept (h : Move job s w deed s') (hopen : s.gate.isOpen = true) (hswept : s.Swept) :
    s'.Swept := by
  refine ⟨?_, fun v => ?_⟩
  · rw [h.size_deques, h.size_workers]
    exact hswept.sizes
  · by_cases hv : v = w
    · rw [hv]
      exact h.swept_phase hopen hswept.sizes (hswept.phases w)
    · rw [h.phase_of_ne hv]
      exact (hswept.phases v).mono fun q hq => h.emptyAt hq

end Job.Move

namespace JobState

theorem swept_initial (memory : Memory) (gate : Gate) (spans : List Span) :
    (initial memory gate spans).Swept := by
  refine ⟨by simp [initial], fun w => ?_⟩
  rw [phase_initial]
  trivial

theorem Swept.start {s : JobState} (h : s.Swept) (w : Nat) : (s.start w).Swept := by
  refine ⟨?_, fun v => ?_⟩
  · rw [deques_start, size_workers_start]
    exact h.sizes
  · rcases s.phase_start w v with hsame | ⟨-, hgate⟩
    · rw [hsame]
      refine (h.phases v).mono fun q hq => ?_
      unfold EmptyAt
      rw [deques_start]
      exact hq
    · rw [hgate]
      trivial

theorem Swept.untakenIndices_eq_nil {s : JobState} (h : s.Swept) {w : Nat}
    (hfinished : s.phase w = .finished) : s.untakenIndices = [] := by
  have hempty := h.phases w
  rw [hfinished] at hempty
  refine List.flatMap_eq_nil_iff.mpr fun deque hdeque => ?_
  obtain ⟨q, hq⟩ := Array.mem_iff_getElem?.mp (Array.mem_toList_iff.mp hdeque)
  exact Span.toList_eq_nil (hempty q deque hq)

/-- A job that only the workers of a team have begun to work on. -/
structure Manned (team : List Nat) (s : JobState) : Prop where
  swept : s.gate.isOpen = true → s.Swept
  idle : ∀ w, w ∉ team → s.phase w = .idle

variable {team : List Nat} {s : JobState}

theorem manned_initial (memory : Memory) (gate : Gate) (spans : List Span) (team : List Nat) :
    (initial memory gate spans).Manned team :=
  ⟨fun _ => swept_initial memory gate spans, fun w _ => phase_initial memory gate spans w⟩

theorem Manned.start (h : s.Manned team) {w : Nat} (hw : w ∈ team) : (s.start w).Manned team := by
  refine ⟨fun hopen => ?_, fun v hv => ?_⟩
  · rw [gate_start] at hopen
    exact (h.swept hopen).start w
  · rcases s.phase_start w v with hsame | ⟨heq, -⟩
    · rw [hsame]
      exact h.idle v hv
    · exact absurd (heq ▸ hw) hv

theorem Manned.move (h : s.Manned team) {job : Job} {w : Nat} {deed : Option Deed} {s' : JobState}
    (hmove : Job.Move job s w deed s') : s'.Manned team := by
  have hw : w ∈ team := by
    by_contra hout
    have hrunning := hmove.isRunning
    rw [h.idle w hout] at hrunning
    cases hrunning
  refine ⟨fun hopen => ?_, fun v hv => ?_⟩
  · rw [hmove.gate_eq] at hopen
    exact hmove.swept hopen (h.swept hopen)
  · have hne : v ≠ w := fun heq => hv (heq ▸ hw)
    rw [hmove.phase_of_ne hne]
    exact h.idle v hv

end JobState

end Elementwise
