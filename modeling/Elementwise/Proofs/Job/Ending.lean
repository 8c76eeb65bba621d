import Elementwise.Proofs.Job.Move
import Mathlib.Data.List.Pairwise
import Mathlib.Tactic.ByContra

/-!
How kernel calls and runs of workers end. A call unwinds where the kernel unwinds and is completed
elsewhere; a worker dies of such a call, or of a lock that was poisoned from the start.
-/

namespace Elementwise

namespace Phase

/-- Whether a call is ending, or the worker died. -/
def isEnding : Phase → Bool
  | storing .. | dead .. => true
  | _ => false

theorem isEnding_sweepFrom (self count peer : Nat) (found : Bool) :
    (sweepFrom self count peer found).isEnding = false :=
  sweepFrom_induction (motive := fun phase => phase.isEnding = false) (fun _ _ => rfl) rfl ..

theorem isEnding_receive {phase : Phase} {self q : Nat} {access : Access}
    (h : phase.access? self = some (q, access)) (count : Nat) (found : Option Nat) :
    phase.isEnding = false ∧ (phase.receive self count found).isEnding = false := by
  cases phase with
  | draining | sweeping =>
      cases found with
      | none => exact ⟨rfl, isEnding_sweepFrom ..⟩
      | some index => exact ⟨rfl, rfl⟩
  | _ => cases h

theorem isEnding_resume (self count : Nat) (origin : Origin) :
    (resume self count origin).isEnding = false := by
  cases origin with
  | own => rfl
  | peer peer => exact isEnding_sweepFrom ..

end Phase

/-- What the phase of a worker says about the end of its call or of its run. -/
def Phase.Explained (job : Job) (c : Course) (w : Nat) : Phase → Prop
  | storing index _ _ => job.unwinding index = none
  | dead (some index) cause =>
      job.unwinding index = some cause ∧ Deed.unwound w index ∈ c.deeds
  | dead none _ => ∃ deque ∈ c.state.deques, deque.lock = ⟨Lock.poisoned⟩
  | _ => True

theorem Phase.explained_of_not_ending {job : Job} {c : Course} {w : Nat} {phase : Phase}
    (h : phase.isEnding = false) : phase.Explained job c w := by
  cases phase with
  | storing | dead => cases h
  | _ => trivial

/-- What is noted of calls agrees with the kernel, and a worker that died in a call is noted with
the index of the call. -/
structure Course.Explained (job : Job) (c : Course) : Prop where
  unheld : c.state.Unheld
  unwound : ∀ index ∈ c.unwound, (job.unwinding index).isSome = true
  completed : ∀ index ∈ c.completed, job.unwinding index = none
  phases : ∀ w, (c.state.phase w).Explained job c w

namespace Job.Move

variable {job : Job} {c : Course} {s' : JobState} {w : Nat} {deed : Option Deed}

theorem exists_poisoned (h : Move job c.state w deed s')
    (hpoisoned : ∃ deque ∈ c.state.deques, deque.lock = ⟨Lock.poisoned⟩) :
    ∃ deque ∈ s'.deques, deque.lock = ⟨Lock.poisoned⟩ := by
  obtain ⟨deque, hdeque, hlock⟩ := hpoisoned
  have hmem : deque.lock ∈ s'.deques.map Deque.lock := by
    rw [h.locks_eq]
    exact Array.mem_map_of_mem hdeque
  obtain ⟨after, hafter, heq⟩ := Array.mem_map.mp hmem
  exact ⟨after, hafter, heq.trans hlock⟩

theorem explained_phase (h : Move job c.state w deed s') :
    (s'.phase w).Explained job (c.note deed s') w := by
  cases h with
  | @enter worker told hworker =>
      rw [JobState.phase_setPhase_self (by exact JobState.lt_size hworker)]
      cases told <;> trivial
  | @take worker q access deque found rest hworker haccess =>
      rw [JobState.phase_setPhase_self (by exact JobState.lt_size hworker)]
      exact Phase.explained_of_not_ending (Phase.isEnding_receive haccess _ found).2
  | @breach worker q access deque hworker haccess hdeque hlock =>
      unfold Job.breach
      split
      · refine Phase.explained_of_not_ending ?_
        change (c.state.phase w).isEnding = false
        rw [JobState.phase_eq hworker]
        exact (Phase.isEnding_receive haccess 0 none).1
      · rw [JobState.phase_setPhase_self (by exact JobState.lt_size hworker)]
        exact ⟨deque, Array.mem_of_getElem? hdeque, hlock⟩
  | @call worker index origin hworker =>
      rw [JobState.phase_setPhase_self (by exact JobState.lt_size hworker)]
      trivial
  | @unwind worker index origin cause hworker hphase hcause =>
      rw [JobState.phase_setPhase_self (by exact JobState.lt_size hworker)]
      exact ⟨hcause, List.mem_append_right _ List.mem_cons_self⟩
  | @read worker index origin hworker hphase hcause =>
      rw [JobState.phase_setPhase_self (by exact JobState.lt_size hworker)]
      exact hcause
  | @store worker index origin bits hworker =>
      rw [JobState.phase_setPhase_self (by exact JobState.lt_size hworker)]
      exact Phase.explained_of_not_ending (Phase.isEnding_resume ..)

/-- A completed call gave a result, and an unwound one did not. -/
theorem explained_deed (h : Move job c.state w deed s')
    (hphase : (c.state.phase w).Explained job c w) :
    (∀ index, deed.bind Deed.unwound? = some index → (job.unwinding index).isSome = true) ∧
      ∀ index, deed.bind Deed.completed? = some index → job.unwinding index = none := by
  cases h with
  | @unwind worker index origin cause hworker hcalling hcause =>
      refine ⟨fun i hi => ?_, fun i hi => by cases hi⟩
      cases hi
      rw [hcause]
      rfl
  | @store worker index origin bits hworker hstoring =>
      refine ⟨fun i hi => (by cases hi), fun i hi => ?_⟩
      cases hi
      rw [JobState.phase_eq hworker, hstoring] at hphase
      exact hphase
  | _ => exact ⟨fun i hi => (by cases hi), fun i hi => by cases hi⟩

end Job.Move

theorem Phase.Explained.mono {job : Job} {c c' : Course} {w : Nat} {phase : Phase}
    (h : phase.Explained job c w) (hdeeds : c.deeds ⊆ c'.deeds)
    (hpoisoned : (∃ deque ∈ c.state.deques, deque.lock = ⟨Lock.poisoned⟩) →
      ∃ deque ∈ c'.state.deques, deque.lock = ⟨Lock.poisoned⟩) : phase.Explained job c' w := by
  cases phase with
  | storing index origin bits => exact h
  | dead held cause =>
      cases held with
      | none => exact hpoisoned h
      | some index => exact ⟨h.1, hdeeds h.2⟩
  | _ => trivial

namespace Course.Explained

variable {job : Job} {c c' : Course}

theorem initial (job : Job) (memory : Memory) (gate : Gate) (spans : List Span) :
    Explained job { state := .initial memory gate spans } := by
  refine ⟨JobState.unheld_initial memory gate spans, ?_, ?_, fun w => ?_⟩
  · exact fun index hindex => absurd hindex List.not_mem_nil
  · exact fun index hindex => absurd hindex List.not_mem_nil
  · rw [JobState.phase_initial]
    trivial

theorem move (h : c.Explained job) {w : Nat} {deed : Option Deed} {s' : JobState}
    (hmove : Job.Move job c.state w deed s') : (c.note deed s').Explained job := by
  obtain ⟨hunwound, hcompleted⟩ := hmove.explained_deed (h.phases w)
  refine ⟨hmove.unheld h.unheld, fun index hindex => ?_, fun index hindex => ?_, fun v => ?_⟩
  · rw [Course.unwound_note, List.mem_append, Option.mem_toList] at hindex
    exact hindex.elim (h.unwound index) (hunwound index)
  · rw [Course.completed_note, List.mem_append, Option.mem_toList] at hindex
    exact hindex.elim (h.completed index) (hcompleted index)
  · by_cases hv : v = w
    · rw [hv]
      exact hmove.explained_phase
    · rw [Course.state_note, hmove.phase_of_ne hv]
      exact (h.phases v).mono (List.subset_append_left _ _) hmove.exists_poisoned

theorem start (h : c.Explained job) (w : Nat) :
    Explained job { c with state := c.state.start w } := by
  refine ⟨?_, h.unwound, h.completed, fun v => ?_⟩
  · intro deque hdeque
    refine h.unheld deque ?_
    rwa [← JobState.deques_start c.state w]
  · rcases c.state.phase_start w v with hsame | ⟨-, hgate⟩
    · rw [hsame]
      refine (h.phases v).mono (List.Subset.refl _) fun hpoisoned => ?_
      rwa [JobState.deques_start]
    · rw [hgate]
      trivial

theorem settle (h : c.Explained job) (started : Nat) :
    Explained job { c with state := c.state.settle started } :=
  ⟨h.unheld, h.unwound, h.completed, fun w => (h.phases w).mono (List.Subset.refl _) id⟩

theorem keeps (job : Job) : job.Keeps (Explained job) where
  unheld _ h := h.unheld
  move _ _ _ _ h hmove := h.move hmove
  start _ w h _ := h.start w
  settle _ started h := h.settle started

theorem unwound_eq_nil (h : c.Explained job) (hkernel : ∀ index, job.unwinding index = none) :
    c.unwound = [] := by
  refine List.eq_nil_iff_forall_not_mem.mpr fun index hindex => ?_
  have hsome := h.unwound index hindex
  rw [hkernel index] at hsome
  cases hsome

end Course.Explained

/-- Every worker whose call unwound is dead of it. Unlike the other invariants this one does not
survive another start of the worker. -/
def Course.Mourned (c : Course) : Prop :=
  ∀ w index, Deed.unwound w index ∈ c.deeds → ∃ cause, c.state.phase w = .dead (some index) cause

theorem Course.mem_unwound {c : Course} {w index : Nat} (h : Deed.unwound w index ∈ c.deeds) :
    index ∈ c.unwound :=
  List.mem_filterMap.mpr ⟨_, h, rfl⟩

/-- As long as no index is noted twice in this way, one deed at most is noted for an index. -/
theorem Deed.eq_of_nodup {kind : Deed → Option Nat} {deeds : List Deed}
    (hnodup : (deeds.filterMap kind).Nodup) {deed other : Deed} (hdeed : deed ∈ deeds)
    (hother : other ∈ deeds) {index : Nat} (h : kind deed = some index)
    (h' : kind other = some index) : deed = other := by
  by_contra hne
  have hsymm : Std.Symm fun deed other : Deed =>
      ∀ i, kind deed = some i → ∀ j, kind other = some j → i ≠ j :=
    ⟨fun _ _ h i hi j hj => (h j hj i hi).symm⟩
  have hpairwise := List.pairwise_filterMap.mp hnodup
  exact hpairwise.forall hdeed hother hne index h index h' rfl

theorem Course.eq_of_unwound {c : Course} (hnodup : c.unwound.Nodup) {v w index : Nat}
    (hv : Deed.unwound v index ∈ c.deeds) (hw : Deed.unwound w index ∈ c.deeds) : v = w := by
  have heq : Deed.unwound v index = .unwound w index :=
    Deed.eq_of_nodup hnodup hv hw rfl rfl
  injection heq

theorem Job.Move.phase_of_unwound {job : Job} {s s' : JobState} {w v index : Nat}
    (h : Job.Move job s w (some (.unwound v index)) s') :
    v = w ∧ ∃ cause, s'.phase w = .dead (some index) cause := by
  cases h with
  | unwind hworker =>
      exact ⟨rfl, _, JobState.phase_setPhase_self (by exact JobState.lt_size hworker) _ _⟩

theorem Course.Mourned.move {c : Course} (h : c.Mourned) {job : Job} {w : Nat} {deed : Option Deed}
    {s' : JobState} (hmove : Job.Move job c.state w deed s') : (c.note deed s').Mourned := by
  intro v index hmem
  rcases List.mem_append.mp hmem with hold | hnew
  · obtain ⟨cause, hdead⟩ := h v index hold
    have hv : v ≠ w := by
      rintro rfl
      have hrunning := hmove.isRunning
      rw [hdead] at hrunning
      cases hrunning
    exact ⟨cause, (hmove.phase_of_ne hv).trans hdead⟩
  · rw [Option.mem_toList] at hnew
    subst hnew
    obtain ⟨rfl, hdead⟩ := hmove.phase_of_unwound
    exact hdead

/-- No lock was ever misused: all of them are free, and the process goes on. -/
structure JobState.Unbroken (s : JobState) : Prop where
  free : ∀ deque ∈ s.deques, deque.lock = ⟨Lock.free⟩
  aborted : s.aborted = none

namespace JobState.Unbroken

theorem initial (memory : Memory) (gate : Gate) (spans : List Span) :
    (JobState.initial memory gate spans).Unbroken := by
  refine ⟨fun deque hdeque => ?_, rfl⟩
  obtain ⟨span, -, rfl⟩ := List.mem_map.mp (List.mem_toArray.mp hdeque)
  rfl

theorem unheld {s : JobState} (h : s.Unbroken) : s.Unheld :=
  fun deque hdeque => .inl (h.free deque hdeque)

theorem not_poisoned {s : JobState} (h : s.Unbroken) {deque : Deque} (hdeque : deque ∈ s.deques) :
    deque.lock ≠ ⟨Lock.poisoned⟩ := by
  rw [h.free deque hdeque]
  decide

theorem move {s s' : JobState} (h : s.Unbroken) {job : Job} {w : Nat} {deed : Option Deed}
    (hmove : Job.Move job s w deed s') : s'.Unbroken := by
  refine ⟨fun deque hdeque => ?_, ?_⟩
  · obtain ⟨before, hbefore, heq⟩ := hmove.exists_lock_eq hdeque
    rw [← heq]
    exact h.free before hbefore
  · cases hmove with
    | breach hworker haccess hdeque hlock =>
        exact absurd hlock (h.not_poisoned (Array.mem_of_getElem? hdeque))
    | _ => exact h.aborted

theorem start {s : JobState} (h : s.Unbroken) (w : Nat) : (s.start w).Unbroken := by
  refine ⟨?_, ?_⟩
  · rw [deques_start]
    exact h.free
  · rw [aborted_start]
    exact h.aborted

theorem keeps (job : Job) : job.Keeps fun c => c.state.Unbroken where
  unheld _ h := h.unheld
  move _ _ _ _ h hmove := h.move hmove
  start _ w h _ := h.start w
  settle _ _ h := ⟨h.free, h.aborted⟩

end JobState.Unbroken

end Elementwise
