import Elementwise.Proofs.Job.Move
import Mathlib.Algebra.BigOperators.Group.Multiset.Basic
import Mathlib.Algebra.Order.BigOperators.Group.List
import Mathlib.Data.Multiset.OrderedMonoid
import Mathlib.Data.Multiset.Bind

/-!
The books of a job. Whatever order its steps come in, an index of the deques is untaken, in the hand
of one worker, or dealt with, and never two of these; and the counters of the workers add up to the
completed calls.
-/

namespace Elementwise

/-- What the entries of an array come to together. -/
def total {α M : Type} [AddCommMonoid M] (f : α → M) (entries : Array α) : M :=
  (entries.toList.map f).sum

section

variable {α M : Type} [AddCommMonoid M] (f : α → M)

theorem sum_map_set {entries : List α} {i : Nat} {old : α} (h : entries[i]? = some old) (new : α) :
    ((entries.set i new).map f).sum + f old = (entries.map f).sum + f new := by
  induction entries generalizing i with
  | nil => cases h
  | cons entry entries ih =>
      cases i with
      | zero =>
          have hold : entry = old := by simpa using h
          subst hold
          simp only [List.set_cons_zero, List.map_cons, List.sum_cons]
          rw [add_right_comm, add_comm (f new), add_right_comm]
      | succ i =>
          have hrest := ih (by simpa using h)
          simp only [List.set_cons_succ, List.map_cons, List.sum_cons]
          rw [add_assoc, hrest, add_assoc]

theorem total_setIfInBounds {entries : Array α} {i : Nat} {old : α} (h : entries[i]? = some old)
    (new : α) : total f (entries.setIfInBounds i new) + f old = total f entries + f new := by
  unfold total
  rw [Array.toList_setIfInBounds]
  exact sum_map_set f (by simpa using h) new

theorem total_eq_zero {entries : Array α} (h : ∀ entry ∈ entries, f entry = 0) :
    total f entries = 0 := by
  refine List.sum_eq_zero fun value hvalue => ?_
  obtain ⟨entry, hentry, rfl⟩ := List.mem_map.mp hvalue
  exact h entry (Array.mem_toList_iff.mp hentry)

theorem mem_total {f : α → Multiset Nat} {entries : Array α} {index : Nat}
    (h : index ∈ total f entries) :
    ∃ (i : Nat) (entry : α), entries[i]? = some entry ∧ index ∈ f entry := by
  have hmem : index ∈ (Multiset.ofList (entries.toList.map f)).join := by
    rw [Multiset.join, Multiset.sum_coe]
    exact h
  obtain ⟨value, hvalue, hindex⟩ := Multiset.mem_join.mp hmem
  obtain ⟨entry, hentry, rfl⟩ := List.mem_map.mp (Multiset.mem_coe.mp hvalue)
  obtain ⟨i, hi⟩ := Array.mem_iff_getElem?.mp (Array.mem_toList_iff.mp hentry)
  exact ⟨i, entry, hi, hindex⟩

end

namespace Phase

/-- The index that a worker has taken and not dealt with. -/
def inHand : Phase → Multiset Nat
  | holding index _ | calling index _ | storing index _ _ => {index}
  | _ => 0

/-- The index whose call a worker has begun and not ended. -/
def inCall : Phase → Multiset Nat
  | calling index _ | storing index _ _ => {index}
  | _ => 0

@[simp] theorem inHand_sweepFrom (self count peer : Nat) (found : Bool) :
    (sweepFrom self count peer found).inHand = 0 :=
  sweepFrom_induction (motive := fun phase => phase.inHand = 0) (fun _ _ => rfl) rfl ..

@[simp] theorem inCall_sweepFrom (self count peer : Nat) (found : Bool) :
    (sweepFrom self count peer found).inCall = 0 :=
  sweepFrom_induction (motive := fun phase => phase.inCall = 0) (fun _ _ => rfl) rfl ..

@[simp] theorem inHand_resume (self count : Nat) (origin : Origin) :
    (resume self count origin).inHand = 0 := by
  cases origin with
  | own => rfl
  | peer peer => exact inHand_sweepFrom ..

@[simp] theorem inCall_resume (self count : Nat) (origin : Origin) :
    (resume self count origin).inCall = 0 := by
  cases origin with
  | own => rfl
  | peer peer => exact inCall_sweepFrom ..

theorem inHand_receive {phase : Phase} {self q : Nat} {access : Access}
    (h : phase.access? self = some (q, access)) (count : Nat) (found : Option Nat) :
    phase.inHand = 0 ∧ (phase.receive self count found).inHand = (found.toList : Multiset Nat) := by
  cases phase with
  | draining | sweeping =>
      cases found with
      | none => exact ⟨rfl, inHand_sweepFrom ..⟩
      | some index => exact ⟨rfl, rfl⟩
  | _ => cases h

theorem inCall_receive {phase : Phase} {self q : Nat} {access : Access}
    (h : phase.access? self = some (q, access)) (count : Nat) (found : Option Nat) :
    phase.inCall = 0 ∧ (phase.receive self count found).inCall = 0 := by
  cases phase with
  | draining | sweeping =>
      cases found with
      | none => exact ⟨rfl, inCall_sweepFrom ..⟩
      | some index => exact ⟨rfl, rfl⟩
  | _ => cases h

theorem inHand_of_not_running {phase : Phase} (h : phase.isRunning = false) :
    phase.inHand = 0 ∧ phase.inCall = 0 := by
  cases phase with
  | idle | finished | dead => exact ⟨rfl, rfl⟩
  | _ => cases h

end Phase

/-- What an access gives and what it leaves are the indices that were there. -/
theorem Access.coe_apply {access : Access} {span rest : Span} {found : Option Nat}
    (h : access.apply span = (.index found, rest)) :
    (found.toList : Multiset Nat) + rest.toList = span.toList := by
  cases access with
  | takeFront =>
      obtain ⟨hfound, hrest⟩ := Prod.mk.inj h
      cases hfound
      rw [← hrest, Multiset.coe_add, Span.toList_takeFront]
  | takeBack =>
      obtain ⟨hfound, hrest⟩ := Prod.mk.inj h
      cases hfound
      rw [← hrest, add_comm, Multiset.coe_add, Span.toList_takeBack]
  | inspect => simp [apply] at h

namespace JobState

theorem coe_untakenIndices (s : JobState) :
    (s.untakenIndices : Multiset Nat) =
      total (fun deque => (deque.bounds.toList : Multiset Nat)) s.deques := by
  unfold untakenIndices total
  induction s.deques.toList with
  | nil => rfl
  | cons deque deques ih =>
      rw [List.flatMap_cons, ← Multiset.coe_add, ih, List.map_cons, List.sum_cons]

end JobState

/-- What the books have to know of a change from `s` to `s'`. Only the entry of one worker changes:
what is taken comes into the hand, what is ended leaves it, and what is completed is counted. -/
structure Posting (s : JobState) (deed : Option Deed) (s' : JobState) (w : Nat) (old new : Worker) :
    Prop where
  before : s.workers[w]? = some old
  workers : s'.workers = s.workers.setIfInBounds w new
  inHand : ((deed.bind Deed.completed?).toList : Multiset Nat) + (deed.bind Deed.unwound?).toList +
    new.phase.inHand = (deed.bind Deed.taken?).toList + old.phase.inHand
  inCall : ((deed.bind Deed.completed?).toList : Multiset Nat) + (deed.bind Deed.unwound?).toList +
    new.phase.inCall + s.called = old.phase.inCall + s'.called
  counted : new.tally.completed =
    old.tally.completed + (deed.bind Deed.completed?).toList.length

namespace Job.Move

variable {job : Job} {s s' : JobState} {w : Nat} {deed : Option Deed}

theorem untaken_eq (h : Move job s w deed s') :
    ((deed.bind Deed.taken?).toList : Multiset Nat) + s'.untakenIndices = s.untakenIndices := by
  cases h with
  | @take worker q access deque found rest hworker haccess hdeque hlock happly =>
      have hspan := Access.coe_apply happly
      have hbook := total_setIfInBounds (fun deque => (deque.bounds.toList : Multiset Nat)) hdeque
        { deque with bounds := rest }
      rw [← hspan, ← add_assoc] at hbook
      rw [JobState.coe_untakenIndices, JobState.coe_untakenIndices, add_comm]
      exact add_right_cancel hbook
  | breach => unfold Job.breach; split <;> exact zero_add _
  | _ => exact zero_add _

theorem posting (h : Move job s w deed s') : ∃ old new, Posting s deed s' w old new := by
  cases h with
  | @enter worker told hworker hphase =>
      refine ⟨worker, _, hworker, rfl, ?_, ?_, rfl⟩
      · cases told <;> simp [hphase, Phase.inHand]
      · cases told <;> simp [hphase, Phase.inCall, JobState.called]
  | @take worker q access deque found rest hworker haccess =>
      have hhand := Phase.inHand_receive haccess s.workers.size found
      have hcall := Phase.inCall_receive haccess s.workers.size found
      refine ⟨worker, _, hworker, rfl, ?_, ?_, rfl⟩
      · rw [hhand.1, hhand.2]
        simp [Deed.taken?, Deed.completed?, Deed.unwound?]
      · rw [hcall.1, hcall.2]
        simp [Deed.completed?, Deed.unwound?, JobState.called]
  | @breach worker q access deque hworker haccess =>
      have hhand := (Phase.inHand_receive haccess s.workers.size none).1
      have hcall := (Phase.inCall_receive haccess s.workers.size none).1
      unfold Job.breach
      split
      · refine ⟨worker, worker, hworker, ?_, by simp, by simp [JobState.called], rfl⟩
        exact (setIfInBounds_self hworker).symm
      · refine ⟨worker, _, hworker, rfl, ?_, ?_, rfl⟩
        · rw [hhand]
          rfl
        · rw [hcall]
          rfl
  | @call worker index origin hworker hphase =>
      refine ⟨worker, _, hworker, rfl, ?_, ?_, rfl⟩
      · simp [hphase, Phase.inHand]
      · simp [hphase, Phase.inCall, JobState.called, ← Multiset.coe_add, add_comm]
  | @unwind worker index origin cause hworker hphase =>
      refine ⟨worker, _, hworker, rfl, ?_, ?_, rfl⟩
      · simp [hphase, Phase.inHand, Deed.taken?, Deed.completed?, Deed.unwound?]
      · simp [hphase, Phase.inCall, Deed.completed?, Deed.unwound?, JobState.called]
  | @read worker index origin hworker hphase =>
      refine ⟨worker, _, hworker, rfl, ?_, ?_, rfl⟩
      · simp [hphase, Phase.inHand]
      · simp [hphase, Phase.inCall, JobState.called]
  | @store worker index origin bits hworker hphase =>
      refine ⟨worker, _, hworker, rfl, ?_, ?_, ?_⟩
      · simp only [Phase.inHand_resume, hphase]
        simp [Phase.inHand, Deed.taken?, Deed.completed?, Deed.unwound?]
      · simp only [Phase.inCall_resume, hphase]
        simp [Phase.inCall, Deed.completed?, Deed.unwound?, JobState.called]
      · cases origin <;> rfl

theorem tally_of_ne (h : Move job s w deed s') {v : Nat} (hv : v ≠ w) :
    s'.tally v = s.tally v := by
  obtain ⟨old, new, hposting⟩ := h.posting
  simp only [JobState.tally, hposting.workers, Array.getElem?_setIfInBounds_ne hv.symm]

end Job.Move

/-- The books of a course over the indices `all`. -/
structure Course.Balanced (all : Multiset Nat) (c : Course) : Prop where
  unheld : c.state.Unheld
  taken : (c.taken : Multiset Nat) + c.state.untakenIndices = all
  inHand : (c.completed : Multiset Nat) + c.unwound +
    total (fun worker => worker.phase.inHand) c.state.workers = c.taken
  inCall : (c.completed : Multiset Nat) + c.unwound +
    total (fun worker => worker.phase.inCall) c.state.workers = c.state.called
  counted : total (fun worker => worker.tally.completed) c.state.workers = c.completed.length

namespace Course.Balanced

theorem initial (memory : Memory) (gate : Gate) (spans : List Span) :
    Balanced (spans.flatMap Span.toList) { state := .initial memory gate spans } := by
  refine ⟨?_, ?_, ?_, ?_, ?_⟩
  · exact JobState.unheld_initial memory gate spans
  · simp only [Course.taken, JobState.untakenIndices, JobState.initial, List.filterMap_nil,
      Multiset.coe_nil, zero_add, List.flatMap_map]
    rfl
  · exact (zero_add _).trans (total_eq_zero _ fun worker hworker => by
      obtain ⟨span, -, rfl⟩ := List.mem_map.mp (List.mem_toArray.mp hworker)
      rfl)
  · exact (zero_add _).trans (total_eq_zero _ fun worker hworker => by
      obtain ⟨span, -, rfl⟩ := List.mem_map.mp (List.mem_toArray.mp hworker)
      rfl)
  · exact total_eq_zero _ fun worker hworker => by
      obtain ⟨span, -, rfl⟩ := List.mem_map.mp (List.mem_toArray.mp hworker)
      rfl

variable {all : Multiset Nat} {c : Course} {job : Job} {w : Nat} {deed : Option Deed}
  {s' : JobState}

theorem post (h : c.Balanced all) (hunheld : s'.Unheld)
    (huntaken : ((deed.bind Deed.taken?).toList : Multiset Nat) + s'.untakenIndices =
      c.state.untakenIndices)
    {old new : Worker} (hposting : Posting c.state deed s' w old new) :
    (c.note deed s').Balanced all := by
  have hbook {M : Type} [AddCommMonoid M] (f : Worker → M) :
      total f s'.workers + f old = total f c.state.workers + f new := by
    rw [hposting.workers]
    exact total_setIfInBounds f hposting.before new
  refine ⟨hunheld, ?_, ?_, ?_, ?_⟩
  · rw [Course.taken_note, Course.state_note, ← Multiset.coe_add, add_assoc, huntaken]
    exact h.taken
  · have htotal := hbook fun worker => worker.phase.inHand
    simp only [Course.completed_note, Course.unwound_note, Course.taken_note, Course.state_note,
      ← Multiset.coe_add, ← h.inHand]
    refine Multiset.ext.mpr fun index => ?_
    have hhandCount := congrArg (Multiset.count index) hposting.inHand
    have htotalCount := congrArg (Multiset.count index) htotal
    simp only [Multiset.count_add] at hhandCount htotalCount ⊢
    omega
  · have htotal := hbook fun worker => worker.phase.inCall
    simp only [Course.completed_note, Course.unwound_note, Course.state_note, ← Multiset.coe_add]
    refine Multiset.ext.mpr fun index => ?_
    have hbeforeCount := congrArg (Multiset.count index) h.inCall
    have hcallCount := congrArg (Multiset.count index) hposting.inCall
    have htotalCount := congrArg (Multiset.count index) htotal
    simp only [Multiset.count_add] at hbeforeCount hcallCount htotalCount ⊢
    omega
  · have htotal := hbook fun worker => worker.tally.completed
    have hbefore := h.counted
    have hcount := hposting.counted
    simp only [Course.completed_note, Course.state_note, List.length_append]
    omega

theorem move (h : c.Balanced all) (hmove : Job.Move job c.state w deed s') :
    (c.note deed s').Balanced all := by
  obtain ⟨old, new, hposting⟩ := hmove.posting
  exact h.post (hmove.unheld h.unheld) hmove.untaken_eq hposting

theorem start (h : c.Balanced all) (hidle : (c.state.phase w).isRunning = false) :
    Balanced all { c with state := c.state.start w } := by
  cases hworker : c.state.workers[w]? with
  | none =>
      rw [JobState.start_of_none hworker]
      exact h
  | some worker =>
      rw [JobState.phase_eq hworker] at hidle
      have hempty := Phase.inHand_of_not_running hidle
      have hposting : Posting c.state none (c.state.setPhase w worker .atGate) w worker
          { worker with phase := .atGate } := by
        refine ⟨hworker, rfl, ?_, ?_, rfl⟩
        · rw [hempty.1]
          rfl
        · rw [hempty.2]
          simp [Phase.inCall, JobState.called]
      have hunheld : (c.state.setPhase w worker .atGate).Unheld := h.unheld
      have hpost := h.post hunheld (zero_add _) hposting
      rw [JobState.start_eq hworker]
      simpa [Course.note] using hpost

theorem settle (h : c.Balanced all) (started : Nat) :
    Balanced all { c with state := c.state.settle started } :=
  ⟨h.unheld, h.taken, h.inHand, h.inCall, h.counted⟩

theorem keeps (job : Job) (all : Multiset Nat) : job.Keeps (Balanced all) where
  unheld _ h := h.unheld
  move _ _ _ _ h hmove := h.move hmove
  start _ _ h hidle := h.start hidle
  settle _ started h := h.settle started

theorem mem_of_taken (h : c.Balanced all) {index : Nat} (hindex : index ∈ c.taken) :
    index ∈ all := by
  rw [← h.taken]
  exact Multiset.mem_add.mpr (.inl (Multiset.mem_coe.mpr hindex))

theorem mem_of_completed (h : c.Balanced all) {index : Nat} (hindex : index ∈ c.completed) :
    index ∈ all := by
  refine h.mem_of_taken ?_
  rw [← Multiset.mem_coe, ← h.inHand, add_assoc]
  exact Multiset.mem_add.mpr (.inl (Multiset.mem_coe.mpr hindex))

theorem mem_of_inHand (h : c.Balanced all) {worker : Worker}
    (hworker : c.state.workers[w]? = some worker) {index : Nat}
    (hindex : index ∈ worker.phase.inHand) : index ∈ all := by
  refine h.mem_of_taken ?_
  rw [← Multiset.mem_coe, ← h.inHand]
  have hmem : worker.phase.inHand ∈ c.state.workers.toList.map fun worker => worker.phase.inHand :=
    List.mem_map_of_mem (Array.mem_toList_iff.mpr (Array.mem_of_getElem? hworker))
  exact Multiset.mem_add.mpr (.inr (Multiset.mem_of_le (List.le_sum_of_mem hmem) hindex))

theorem taken_append_perm {indices : List Nat} (h : c.Balanced indices) :
    (c.taken ++ c.state.untakenIndices).Perm indices := by
  rw [← Multiset.coe_eq_coe, ← Multiset.coe_add]
  exact h.taken

/-- An index is completed at most once, also if workers die and start again. -/
theorem completed_subperm {indices : List Nat} (h : c.Balanced indices) :
    c.completed.Subperm indices := by
  rw [← Multiset.coe_le, ← h.taken, ← h.inHand, add_assoc, add_assoc]
  exact Multiset.le_add_right _ _

/-- An index that was called was taken before. -/
theorem called_le (h : c.Balanced all) : (c.state.called : Multiset Nat) ≤ c.taken := by
  have hphase (worker : Worker) : worker.phase.inCall ≤ worker.phase.inHand := by
    cases worker.phase with
    | holding index origin => exact Multiset.zero_le _
    | _ => exact le_refl _
  rw [← h.inHand, ← h.inCall]
  exact add_le_add_right (List.sum_le_sum fun worker _ => hphase worker) _

theorem called_nodup (h : c.Balanced all) (hall : all.Nodup) : c.state.called.Nodup := by
  have htaken : (c.taken : Multiset Nat) ≤ all := h.taken ▸ Multiset.le_add_right _ _
  exact Multiset.coe_nodup.mp (Multiset.nodup_of_le (h.called_le.trans htaken) hall)

/-- Once nobody is running, every index taken was called, and its call was completed or unwound. -/
theorem ended_perm (h : c.Balanced all) (hover : ∀ w, (c.state.phase w).isRunning = false) :
    (c.completed ++ c.unwound).Perm c.taken ∧ c.state.called.Perm c.taken := by
  have hempty (worker : Worker) (hworker : worker ∈ c.state.workers) :
      worker.phase.inHand = 0 ∧ worker.phase.inCall = 0 := by
    obtain ⟨w, hw⟩ := Array.mem_iff_getElem?.mp hworker
    refine Phase.inHand_of_not_running ?_
    rw [← JobState.phase_eq hw]
    exact hover w
  have hhand := h.inHand
  have hcall := h.inCall
  rw [total_eq_zero _ fun worker hworker => (hempty worker hworker).1, add_zero] at hhand
  rw [total_eq_zero _ fun worker hworker => (hempty worker hworker).2, add_zero, hhand] at hcall
  rw [← Multiset.coe_eq_coe, ← Multiset.coe_eq_coe, ← Multiset.coe_add]
  exact ⟨hhand, hcall.symm⟩

end Course.Balanced

end Elementwise
