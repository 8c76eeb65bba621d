import Elementwise.Proofs.Job.Balance
import Elementwise.Proofs.Job.Ending

/-!
The end of the workers' runs. With every step a worker comes closer to its end, or it takes an index
and there is one less to take. So it cannot go on for ever, and behind a settled gate nothing holds
it up.
-/

namespace Elementwise

/-- The worker that an index was stolen from. -/
def Origin.peer? : Origin → Option Nat
  | own => none
  | peer worker => some worker

namespace Phase

/-- The peer that a sweep has come to. -/
def peer? : Phase → Option Nat
  | sweeping peer _ => some peer
  | holding _ origin | calling _ origin | storing _ origin _ => origin.peer?
  | _ => none

/-- A bound for the steps that a worker still takes before its next index or its end. From its own
deque it goes on to one sweep, and a sweep that finds something is followed by another. -/
def effort (count : Nat) : Phase → Nat
  | idle | finished | dead .. => 0
  | sweeping peer found => count - peer + 1 + if found then count + 1 else 0
  | draining => 2 * count + 3
  | atGate | storing .. => 2 * count + 4
  | calling .. => 2 * count + 5
  | holding .. => 2 * count + 6

theorem effort_eq_zero {phase : Phase} (h : phase.isRunning = false) (count : Nat) :
    phase.effort count = 0 := by
  cases phase with
  | idle | finished | dead => rfl
  | _ => cases h

theorem effort_pos {phase : Phase} {self q : Nat} {access : Access}
    (h : phase.access? self = some (q, access)) (count : Nat) : 0 < phase.effort count := by
  cases phase with
  | draining => exact Nat.succ_pos _
  | sweeping peer found => exact Nat.add_pos_left (Nat.succ_pos _) _
  | _ => cases h

theorem effort_sweepFrom_le (self count peer : Nat) (found : Bool) :
    (sweepFrom self count peer found).effort count ≤
      count + 1 - peer + if found then count + 1 else 0 := by
  have hnext : peer ≤ if peer = self then peer + 1 else peer := by split <;> omega
  simp only [sweepFrom]
  generalize (if peer = self then peer + 1 else peer) = next at hnext
  cases found with
  | false =>
      split
      · simp only [effort, if_false, Bool.false_eq_true]
        omega
      · exact Nat.zero_le _
  | true =>
      split
      · simp only [effort, if_true]
        omega
      · simp only [effort, if_true, if_false, Bool.false_eq_true]
        omega

theorem effort_receive_lt {phase : Phase} {self q : Nat} {access : Access}
    (h : phase.access? self = some (q, access)) (count : Nat) (found : Option Nat) :
    (phase.receive self count found).effort count <
      phase.effort count + (2 * count + 6) * found.toList.length := by
  cases phase with
  | draining =>
      cases found with
      | none =>
          have hle := effort_sweepFrom_le self count 0 false
          change (sweepFrom self count 0 false).effort count < 2 * count + 3
          simp only [if_false, Bool.false_eq_true] at hle
          omega
      | some index =>
          change 2 * count + 6 < 2 * count + 3 + (2 * count + 6) * 1
          omega
  | sweeping peer any =>
      cases found with
      | none =>
          have hle := effort_sweepFrom_le self count (peer + 1) any
          change (sweepFrom self count (peer + 1) any).effort count <
            count - peer + 1 + if any then count + 1 else 0
          omega
      | some index =>
          have hpos := effort_pos h count
          change 2 * count + 6 < (sweeping peer any).effort count + (2 * count + 6) * 1
          omega
  | _ => cases h

theorem effort_resume_lt (self count : Nat) (origin : Origin) :
    (resume self count origin).effort count < 2 * count + 4 := by
  cases origin with
  | own =>
      simp only [resume, effort]
      omega
  | peer peer =>
      have hle := effort_sweepFrom_le self count (peer + 1) true
      simp only [if_true] at hle
      simp only [resume]
      omega

theorem peer?_sweepFrom {self count peer next : Nat} {found : Bool} (hself : self < count)
    (hfound : found = true → 1 < count)
    (h : (sweepFrom self count peer found).peer? = some next) : next < count ∧ next ≠ self := by
  have hskip : (if peer = self then peer + 1 else peer) ≠ self := by split <;> omega
  simp only [sweepFrom] at h
  generalize (if peer = self then peer + 1 else peer) = first at h hskip
  by_cases hlt : first < count
  · rw [if_pos hlt] at h
    cases h
    exact ⟨hlt, hskip⟩
  · rw [if_neg hlt] at h
    cases found with
    | false => cases h
    | true =>
        cases h
        by_cases hzero : self = 0
        · rw [if_pos hzero]
          exact ⟨hfound rfl, by omega⟩
        · rw [if_neg hzero]
          exact ⟨Nat.zero_lt_of_lt hself, Ne.symm hzero⟩

theorem peer?_sweepFrom_of_peer {self count peer first next : Nat} {found : Bool}
    (hself : self < count) (hpeer : peer < count ∧ peer ≠ self)
    (h : (sweepFrom self count first found).peer? = some next) : next < count ∧ next ≠ self :=
  peer?_sweepFrom hself (fun _ => by omega) h

theorem peer?_receive {phase : Phase} {self count q next : Nat} {access : Access}
    {found : Option Nat} (haccess : phase.access? self = some (q, access)) (hself : self < count)
    (hpeer : ∀ peer, phase.peer? = some peer → peer < count ∧ peer ≠ self)
    (h : (phase.receive self count found).peer? = some next) : next < count ∧ next ≠ self := by
  cases phase with
  | draining =>
      cases found with
      | none => exact peer?_sweepFrom hself (fun hfalse => by cases hfalse) h
      | some index => cases h
  | sweeping peer any =>
      cases found with
      | none => exact peer?_sweepFrom_of_peer hself (hpeer peer rfl) h
      | some index => exact hpeer next h
  | _ => cases haccess

theorem peer?_resume {self count next : Nat} {origin : Origin} (hself : self < count)
    (hpeer : ∀ peer, origin.peer? = some peer → peer < count ∧ peer ≠ self)
    (h : (resume self count origin).peer? = some next) : next < count ∧ next ≠ self := by
  cases origin with
  | own => cases h
  | peer peer => exact peer?_sweepFrom_of_peer hself (hpeer peer rfl) h

end Phase

namespace JobState

/-- A bound for the steps that the workers of a job still take, all of them together. -/
def effort (s : JobState) : Nat :=
  (2 * s.workers.size + 6) * s.untakenIndices.length +
    total (fun worker => worker.phase.effort s.workers.size) s.workers

/-- The process goes on whatever its workers find: no lock is poisoned, or a worker that finds one
dies of it alone. -/
structure Lasting (job : Job) (s : JobState) : Prop where
  unheld : s.Unheld
  aborted : s.aborted = none
  bearable : job.onBreach = .unwind ∨ ∀ deque ∈ s.deques, deque.lock ≠ ⟨Lock.poisoned⟩

theorem Unbroken.lasting {s : JobState} (h : s.Unbroken) (job : Job) : s.Lasting job :=
  ⟨h.unheld, h.aborted, .inr fun _ hdeque => h.not_poisoned hdeque⟩

/-- There is a deque for each worker, and nobody has come to a peer that does not exist. -/
structure Fit (s : JobState) : Prop where
  sizes : s.deques.size = s.workers.size
  peers : ∀ w peer, (s.phase w).peer? = some peer → peer < s.workers.size ∧ peer ≠ w

end JobState

namespace Job.Move

variable {job : Job} {s s' : JobState} {w : Nat} {deed : Option Deed}

theorem lasting (h : Move job s w deed s') (hlasting : s.Lasting job) : s'.Lasting job := by
  refine ⟨h.unheld hlasting.unheld, ?_, hlasting.bearable.imp_right fun hsound deque hdeque => ?_⟩
  · cases h with
    | breach hworker haccess hdeque hlock =>
        rcases hlasting.bearable with hunwind | hsound
        · rw [Job.breach, hunwind]
          exact hlasting.aborted
        · exact absurd hlock (hsound _ (Array.mem_of_getElem? hdeque))
    | _ => exact hlasting.aborted
  · obtain ⟨before, hbefore, heq⟩ := h.exists_lock_eq hdeque
    rw [← heq]
    exact hsound before hbefore

theorem effort_phase_lt (h : Move job s w deed s') (hlasting : s.Lasting job) :
    (s'.phase w).effort s.workers.size < (s.phase w).effort s.workers.size +
      (2 * s.workers.size + 6) * (deed.bind Deed.taken?).toList.length := by
  cases h with
  | @enter worker told hworker hphase =>
      rw [JobState.phase_setPhase_self (by exact JobState.lt_size hworker),
        JobState.phase_eq hworker, hphase]
      cases told <;> simp [Phase.effort]
  | @take worker q access deque found rest hworker haccess =>
      rw [JobState.phase_setPhase_self (by exact JobState.lt_size hworker),
        JobState.phase_eq hworker]
      exact Phase.effort_receive_lt haccess s.workers.size found
  | @breach worker q access deque hworker haccess hdeque hlock =>
      rcases hlasting.bearable with hunwind | hsound
      · rw [Job.breach, hunwind, JobState.phase_setPhase_self (JobState.lt_size hworker),
          JobState.phase_eq hworker]
        exact Nat.lt_add_right _ (Phase.effort_pos haccess s.workers.size)
      · exact absurd hlock (hsound deque (Array.mem_of_getElem? hdeque))
  | call hworker hphase | unwind hworker hphase | read hworker hphase =>
      rw [JobState.phase_setPhase_self (by exact JobState.lt_size hworker),
        JobState.phase_eq hworker, hphase]
      refine Nat.lt_add_right _ ?_
      simp [Phase.effort]
  | @store worker index origin bits hworker hphase =>
      rw [JobState.phase_setPhase_self (by exact JobState.lt_size hworker),
        JobState.phase_eq hworker, hphase]
      exact Phase.effort_resume_lt w s.workers.size origin

theorem effort_lt (h : Move job s w deed s') (hlasting : s.Lasting job) :
    s'.effort < s.effort := by
  obtain ⟨old, new, hposting⟩ := h.posting
  have hbook := total_setIfInBounds (fun worker => worker.phase.effort s.workers.size)
    hposting.before new
  have hnew : s'.workers[w]? = some new := by
    rw [hposting.workers]
    simp [JobState.lt_size hposting.before]
  have hphase := h.effort_phase_lt hlasting
  rw [JobState.phase_eq hposting.before, JobState.phase_eq hnew] at hphase
  -- an index that is taken pays for everything that its worker does until the next one
  have huntaken : (deed.bind Deed.taken?).toList.length + s'.untakenIndices.length =
      s.untakenIndices.length := by
    have hcard := congrArg Multiset.card h.untaken_eq
    simpa only [Multiset.card_add, Multiset.coe_card] using hcard
  simp only [JobState.effort]
  rw [h.size_workers, ← huntaken, Nat.mul_add]
  rw [hposting.workers]
  omega

theorem peer_phase (h : Move job s w deed s')
    (hbefore : ∀ peer, (s.phase w).peer? = some peer → peer < s.workers.size ∧ peer ≠ w)
    {peer : Nat} (hpeer : (s'.phase w).peer? = some peer) :
    peer < s.workers.size ∧ peer ≠ w := by
  cases h with
  | @enter worker told hworker =>
      rw [JobState.phase_setPhase_self (by exact JobState.lt_size hworker)] at hpeer
      cases told <;> cases hpeer
  | @take worker q access deque found rest hworker haccess =>
      rw [JobState.phase_setPhase_self (by exact JobState.lt_size hworker)] at hpeer
      rw [JobState.phase_eq hworker] at hbefore
      exact Phase.peer?_receive haccess (JobState.lt_size hworker) hbefore hpeer
  | @breach worker q access deque hworker =>
      unfold Job.breach at hpeer
      split at hpeer
      · exact hbefore peer hpeer
      · rw [JobState.phase_setPhase_self (by exact JobState.lt_size hworker)] at hpeer
        cases hpeer
  | call hworker hphase | read hworker hphase =>
      rw [JobState.phase_setPhase_self (by exact JobState.lt_size hworker)] at hpeer
      rw [JobState.phase_eq hworker, hphase] at hbefore
      exact hbefore peer hpeer
  | unwind hworker =>
      rw [JobState.phase_setPhase_self (by exact JobState.lt_size hworker)] at hpeer
      cases hpeer
  | store hworker hphase =>
      rw [JobState.phase_setPhase_self (by exact JobState.lt_size hworker)] at hpeer
      rw [JobState.phase_eq hworker, hphase] at hbefore
      exact Phase.peer?_resume (JobState.lt_size hworker) hbefore hpeer

theorem fit (h : Move job s w deed s') (hfit : s.Fit) : s'.Fit := by
  refine ⟨?_, ?_⟩
  · rw [h.size_deques, h.size_workers]
    exact hfit.sizes
  · intro v peer hpeer
    rw [h.size_workers]
    by_cases hv : v = w
    · subst hv
      exact h.peer_phase (hfit.peers v) hpeer
    · rw [h.phase_of_ne hv] at hpeer
      exact hfit.peers v peer hpeer

end Job.Move

namespace JobState

variable {s : JobState}

theorem fit_initial (memory : Memory) (gate : Gate) (spans : List Span) :
    (initial memory gate spans).Fit := by
  refine ⟨by simp [initial], ?_⟩
  intro w peer hpeer
  rw [phase_initial] at hpeer
  cases hpeer

theorem effort_initial (memory : Memory) (gate : Gate) (spans : List Span) :
    (initial memory gate spans).effort =
      (2 * spans.length + 6) * (spans.flatMap Span.toList).length := by
  have huntaken : (initial memory gate spans).untakenIndices = spans.flatMap Span.toList := by
    simp only [untakenIndices, initial, List.flatMap_map]
    rfl
  have hidle : total (fun worker : Worker => worker.phase.effort spans.length)
      (initial memory gate spans).workers = 0 := by
    refine total_eq_zero _ fun worker hworker => ?_
    obtain ⟨w, hw⟩ := Array.mem_iff_getElem?.mp hworker
    rw [worker_initial hw]
    rfl
  rw [effort, size_workers_initial, huntaken, hidle, Nat.add_zero]

theorem Fit.start (h : s.Fit) (w : Nat) : (s.start w).Fit := by
  refine ⟨?_, ?_⟩
  · rw [deques_start, size_workers_start]
    exact h.sizes
  · intro v peer hpeer
    rw [size_workers_start]
    rcases s.phase_start w v with hsame | ⟨-, hgate⟩
    · rw [hsame] at hpeer
      exact h.peers v peer hpeer
    · rw [hgate] at hpeer
      cases hpeer

theorem isAccessible_of_lt (hunheld : s.Unheld) {q : Nat} (hq : q < s.deques.size) :
    s.isAccessible q = true := by
  rw [isAccessible, Array.getElem?_eq_getElem hq]
  rcases hunheld _ (Array.getElem_mem hq) with hlock | hlock
  · simp only [hlock]
    rfl
  · simp only [hlock]
    rfl

theorem Fit.lt_size_of_access (h : s.Fit) {w q : Nat} {access : Access}
    (haccess : (s.phase w).access? w = some (q, access)) : q < s.deques.size := by
  rw [h.sizes]
  cases hphase : s.phase w with
  | draining =>
      rw [hphase] at haccess
      cases haccess
      by_contra hout
      rw [phase_of_none (Array.getElem?_eq_none (Nat.le_of_not_lt hout))] at hphase
      cases hphase
  | sweeping peer found =>
      rw [hphase] at haccess
      cases haccess
      exact (h.peers w q (by rw [hphase]; rfl)).1
  | _ =>
      rw [hphase] at haccess
      cases haccess

/-- Behind a settled gate nothing holds up a worker whose run is not over. -/
theorem isReady_of_isRunning {job : Job} (hlasting : s.Lasting job) (hfit : s.Fit)
    (hsettled : s.gate.wait?.isSome = true) {w : Nat} (hrunning : (s.phase w).isRunning = true) :
    s.isReady w = true := by
  rw [isReady, hlasting.aborted]
  cases hphase : s.phase w with
  | idle | finished | dead =>
      rw [hphase] at hrunning
      cases hrunning
  | atGate => exact hsettled
  | draining | sweeping =>
      exact isAccessible_of_lt hlasting.unheld (hfit.lt_size_of_access (by rw [hphase]; rfl))
  | holding | calling | storing => rfl

theorem Lasting.start {job : Job} (h : s.Lasting job) (w : Nat) : (s.start w).Lasting job := by
  refine ⟨?_, ?_, ?_⟩
  · unfold Unheld
    rw [deques_start]
    exact h.unheld
  · rw [aborted_start]
    exact h.aborted
  · rw [deques_start]
    exact h.bearable

theorem Lasting.keeps (job : Job) : job.Keeps fun c => c.state.Lasting job where
  unheld _ h := h.unheld
  move _ _ _ _ h hmove := hmove.lasting h
  start _ w h _ := h.start w
  settle _ _ h := ⟨h.unheld, h.aborted, h.bearable⟩

theorem effort_start_le {w : Nat} (h : (s.phase w).isRunning = false) :
    (s.start w).effort ≤ s.effort + (2 * s.workers.size + 4) := by
  cases hworker : s.workers[w]? with
  | none =>
      rw [start_of_none hworker]
      exact Nat.le_add_right _ _
  | some worker =>
      have hbook := total_setIfInBounds (fun worker => worker.phase.effort s.workers.size) hworker
        { worker with phase := .atGate }
      rw [phase_eq hworker] at h
      simp only [Phase.effort_eq_zero h, Nat.add_zero] at hbook
      rw [start_eq hworker, effort, size_workers_setPhase]
      change _ + total (fun worker => worker.phase.effort s.workers.size)
        (s.workers.setIfInBounds w { worker with phase := .atGate }) ≤ _
      rw [hbook]
      exact Nat.le_of_eq (Nat.add_assoc _ _ _).symm

end JobState

end Elementwise
