import Elementwise.Proofs.Job.ExactlyOnce
import Elementwise.Proofs.Job.Gathering

/-!
Jobs some of whose deques have a poisoned lock from the start. A worker may only finish when it has
seen every deque empty, so none does: it dies of its own deque, or in its first sweep, which goes in
ascending order and gets no further than the first broken deque.
-/

namespace Elementwise

/-- The deque of another that a worker has operated on. -/
def Deed.robbed? (w : Nat) : Deed → Option Nat
  | accessed v q .takeBack _ => if v = w then some q else none
  | _ => none

/-- The deques of others that a worker has operated on, in order. -/
def Course.robbed (c : Course) (w : Nat) : List Nat := c.deeds.filterMap (Deed.robbed? w)

namespace Phase

/-- The deque that a worker which sweeps comes to next. -/
def target? : Phase → Option Nat
  | sweeping peer _ => some peer
  | _ => none

/-- The worker that the index in hand was stolen from. -/
def loot? : Phase → Option Nat
  | holding _ origin | calling _ origin | storing _ origin _ => origin.peer?
  | _ => none

theorem loot?_sweepFrom (self count peer : Nat) (found : Bool) :
    (sweepFrom self count peer found).loot? = none :=
  sweepFrom_induction (motive := fun phase => phase.loot? = none) (fun _ _ => rfl) rfl ..

end Phase

/-- The deques of others that a worker has operated on, and the one that it comes to next. -/
def Course.visits (c : Course) (w : Nat) : List Nat :=
  c.robbed w ++ (c.state.phase w).target?.toList

namespace JobState

/-- Poisons the locks of some deques. -/
def poison (broken : Nat → Bool) (s : JobState) : JobState :=
  { s with
    deques := s.deques.mapIdx fun q deque =>
      if broken q then { deque with lock := ⟨Lock.poisoned⟩ } else deque }

variable {broken : Nat → Bool} {s : JobState}

@[simp] theorem phase_poison (w : Nat) : (s.poison broken).phase w = s.phase w := rfl

@[simp] theorem tally_poison (w : Nat) : (s.poison broken).tally w = s.tally w := rfl

theorem getElem?_poison {q : Nat} {deque : Deque}
    (h : (s.poison broken).deques[q]? = some deque) :
    ∃ before, s.deques[q]? = some before ∧ deque.bounds = before.bounds ∧
      deque.lock = if broken q then ⟨Lock.poisoned⟩ else before.lock := by
  simp only [poison, Array.getElem?_mapIdx, Option.map_eq_some_iff] at h
  obtain ⟨before, hbefore, rfl⟩ := h
  refine ⟨before, hbefore, ?_, ?_⟩
  · split <;> rfl
  · split <;> rfl

theorem Unheld.poison (h : s.Unheld) (broken : Nat → Bool) : (s.poison broken).Unheld := by
  intro deque hdeque
  obtain ⟨q, hq⟩ := Array.mem_iff_getElem?.mp hdeque
  obtain ⟨before, hbefore, -, hlock⟩ := getElem?_poison hq
  rw [hlock]
  split
  · exact .inr rfl
  · exact h before (Array.mem_of_getElem? hbefore)

theorem untakenIndices_poison : (s.poison broken).untakenIndices = s.untakenIndices := by
  have hbounds : (s.poison broken).deques.map Deque.bounds = s.deques.map Deque.bounds := by
    refine Array.ext_getElem? fun q => ?_
    simp only [poison, Array.getElem?_map, Array.getElem?_mapIdx, Option.map_map]
    refine congrArg (fun f => Option.map f s.deques[q]?) (funext fun deque => ?_)
    simp only [Function.comp_apply]
    split <;> rfl
  have hlist := congrArg Array.toList hbounds
  rw [Array.toList_map, Array.toList_map] at hlist
  simp only [untakenIndices]
  rw [← List.flatMap_map (f := Deque.bounds), hlist, List.flatMap_map]

theorem effort_poison : (s.poison broken).effort = s.effort := by
  rw [effort, untakenIndices_poison]
  rfl

theorem Fit.poison (h : s.Fit) (broken : Nat → Bool) : (s.poison broken).Fit := by
  refine ⟨?_, h.peers⟩
  simp only [JobState.poison, Array.size_mapIdx]
  exact h.sizes

theorem Lasting.poison {job : Job} (h : s.Lasting job) (hpolicy : job.onBreach = .unwind)
    (broken : Nat → Bool) : (s.poison broken).Lasting job :=
  ⟨h.unheld.poison broken, h.aborted, .inl hpolicy⟩

end JobState

theorem Course.Balanced.poison {all : Multiset Nat} {c : Course} (h : c.Balanced all)
    (broken : Nat → Bool) : Balanced all { c with state := c.state.poison broken } := by
  refine ⟨h.unheld.poison broken, ?_, h.inHand, h.inCall, h.counted⟩
  rw [JobState.untakenIndices_poison]
  exact h.taken

/-- How far a worker gets with the index in hand. -/
def Origin.Barred (first : Nat) (visited : List Nat) : Origin → Prop
  | own => visited = []
  | peer worker => worker < first ∧ ∀ q ∈ visited, q ≤ worker

/-- How far a worker gets that has visited some other deques, where deque `first` is broken. -/
def Phase.Barred (broken : Nat → Bool) (first self : Nat) (visited : List Nat) : Phase → Prop
  | idle | atGate | draining => visited = []
  | sweeping peer _ => broken self = false ∧ peer ≤ first ∧ ∀ q ∈ visited, q < peer
  | holding _ origin | calling _ origin | storing _ origin _ =>
      broken self = false ∧ origin.Barred first visited
  | finished => False
  | dead held cause => held = none ∧ cause = .breach (.lockProtocol Lock.poisoned)

namespace Phase

variable {broken : Nat → Bool} {first self count : Nat} {visited : List Nat}

/-- A sweep that has not come past another deque does not end before it. -/
theorem sweepFrom_of_le {peer : Nat} (hself : first ≠ self) (hcount : first < count)
    (hpeer : peer ≤ first) (found : Bool) :
    ∃ next, peer ≤ next ∧ next ≤ first ∧
      sweepFrom self count peer found = sweeping next found := by
  refine ⟨if peer = self then peer + 1 else peer, ?_, ?_, ?_⟩
  · split <;> omega
  · split <;> omega
  · simp only [sweepFrom]
    rw [if_pos]
    split <;> omega

theorem barred_sweepFrom {peer : Nat} (hfirst : broken first = true) (hcount : first < count)
    (hself : broken self = false) (hpeer : peer ≤ first) (hvisited : ∀ q ∈ visited, q < peer)
    (found : Bool) : (sweepFrom self count peer found).Barred broken first self visited := by
  have hne : first ≠ self := by
    rintro rfl
    rw [hfirst] at hself
    cases hself
  obtain ⟨next, hle, hnext, heq⟩ := sweepFrom_of_le hne hcount hpeer found
  rw [heq]
  exact ⟨hself, hnext, fun q hq => Nat.lt_of_lt_of_le (hvisited q hq) hle⟩

theorem barred_resume {origin : Origin} (hfirst : broken first = true) (hcount : first < count)
    (hself : broken self = false) (h : origin.Barred first visited) :
    (resume self count origin).Barred broken first self visited := by
  cases origin with
  | own => exact h
  | peer peer =>
      exact barred_sweepFrom hfirst hcount hself h.1 (fun q hq => Nat.lt_succ_of_le (h.2 q hq)) true

theorem barred_receive {phase : Phase} {q : Nat} {access : Access}
    (h : phase.Barred broken first self visited) (hfirst : broken first = true)
    (hcount : first < count) (haccess : phase.access? self = some (q, access))
    (hq : broken q = false) (found : Option Nat) :
    (phase.receive self count found).Barred broken first self
      (visited ++ if access = .takeBack then [q] else []) := by
  cases phase with
  | draining =>
      cases haccess
      obtain rfl : visited = [] := h
      rcases found with - | index
      · exact barred_sweepFrom hfirst hcount hq (Nat.zero_le _) (by simp) false
      · exact ⟨hq, rfl⟩
  | sweeping peer any =>
      cases haccess
      obtain ⟨hself, hle, hvisited⟩ := h
      have hlt : q < first := by
        refine Nat.lt_of_le_of_ne hle ?_
        rintro rfl
        rw [hfirst] at hq
        cases hq
      have hall : ∀ p ∈ visited ++ [q], p ≤ q := by
        intro p hp
        rcases List.mem_append.mp hp with hp | hp
        · exact Nat.le_of_lt (hvisited p hp)
        · exact Nat.le_of_eq (List.mem_singleton.mp hp)
      rcases found with - | index
      · exact barred_sweepFrom hfirst hcount hself hlt
          (fun p hp => Nat.lt_succ_of_le (hall p hp)) any
      · exact ⟨hself, hlt, hall⟩
  | _ => cases haccess

end Phase

/-- What is known of a worker that has visited some other deques, where deque `first` is broken. -/
structure BarredAt (broken : Nat → Bool) (first w : Nat) (phase : Phase) (visited : List Nat)
    (stolen : Nat) : Prop where
  barred : phase.Barred broken first w visited
  ascending : visited.Pairwise (· < ·)
  below : ∀ q ∈ visited, q < first ∧ q ≠ w
  stolen : stolen + phase.loot?.toList.length ≤ visited.length

namespace BarredAt

variable {broken : Nat → Bool} {first self count stolen : Nat} {phase : Phase} {visited : List Nat}

/-- Going on without a visit and with nothing more in hand. -/
theorem quiet {after : Phase} {stolen' : Nat} (h : BarredAt broken first self phase visited stolen)
    (hbarred : after.Barred broken first self visited)
    (hstolen : stolen' + after.loot?.toList.length ≤ stolen + phase.loot?.toList.length) :
    BarredAt broken first self after visited stolen' :=
  ⟨hbarred, h.ascending, h.below, Nat.le_trans hstolen h.stolen⟩

theorem receive {q : Nat} {access : Access} (h : BarredAt broken first self phase visited stolen)
    (hfirst : broken first = true) (hcount : first < count)
    (haccess : phase.access? self = some (q, access)) (hpeer : phase.peer? = some q → q ≠ self)
    (hq : broken q = false) (found : Option Nat) :
    BarredAt broken first self (phase.receive self count found)
      (visited ++ if access = .takeBack then [q] else []) stolen := by
  have hbarred := Phase.barred_receive h.barred hfirst hcount haccess hq found
  cases phase with
  | draining =>
      cases haccess
      refine ⟨hbarred, ?_, ?_, ?_⟩
      · simpa using h.ascending
      · simpa using h.below
      · rcases found with - | index
        · simp only [Phase.receive, Phase.loot?_sweepFrom]
          exact h.stolen.trans (by simp)
        · exact h.stolen.trans (by simp)
  | sweeping peer any =>
      cases haccess
      obtain ⟨-, hle, hvisited⟩ := h.barred
      refine ⟨hbarred, ?_, ?_, ?_⟩
      · refine List.pairwise_append.mpr ⟨h.ascending, List.pairwise_singleton _ _, ?_⟩
        intro p hp r hr
        rw [List.mem_singleton.mp hr]
        exact hvisited p hp
      · intro p hp
        rcases List.mem_append.mp hp with hp | hp
        · exact h.below p hp
        · rw [List.mem_singleton.mp hp]
          refine ⟨Nat.lt_of_le_of_ne hle ?_, hpeer rfl⟩
          rintro rfl
          rw [hfirst] at hq
          cases hq
      · have hbefore : stolen ≤ visited.length := h.stolen
        rw [if_pos rfl, List.length_append, List.length_singleton]
        rcases found with - | index
        · simp only [Phase.receive, Phase.loot?_sweepFrom, Option.toList_none, List.length_nil]
          omega
        · exact Nat.succ_le_succ hbefore
  | _ => cases haccess

/-- A worker steals at most once from each deque below the first broken one. -/
theorem stolen_le (h : BarredAt broken first self phase visited stolen) :
    stolen ≤ ((List.range first).filter (· ≠ self)).length := by
  have hnodup : visited.Nodup := h.ascending.imp Nat.ne_of_lt
  have hsubset : visited ⊆ (List.range first).filter (· ≠ self) := by
    intro q hq
    obtain ⟨hlt, hne⟩ := h.below q hq
    exact List.mem_filter.mpr ⟨List.mem_range.mpr hlt, decide_eq_true hne⟩
  calc
    stolen ≤ stolen + phase.loot?.toList.length := Nat.le_add_right _ _
    _ ≤ visited.length := h.stolen
    _ ≤ ((List.range first).filter (· ≠ self)).length := (hnodup.subperm hsubset).length_le

theorem visits_ascending (h : BarredAt broken first self phase visited stolen) :
    (visited ++ phase.target?.toList).Pairwise (· < ·) := by
  cases phase with
  | sweeping peer found =>
      refine List.pairwise_append.mpr ⟨h.ascending, List.pairwise_singleton _ _, ?_⟩
      intro q hq p hp
      rw [List.mem_singleton.mp hp]
      exact h.barred.2.2 q hq
  | _ => simpa [Phase.target?] using h.ascending

end BarredAt

/-- A job that begins with broken deques, one of which is `first`. Breaches are borne by the workers
that find them, and the kernel gives all results. -/
structure JobState.Damaged (job : Job) (opening : JobState) (broken : Nat → Bool) (first : Nat) :
    Prop where
  policy : job.onBreach = .unwind
  kernel : ∀ index, job.unwinding index = none
  poisoned : ∀ q deque, opening.deques[q]? = some deque → broken q = true →
    deque.lock = ⟨Lock.poisoned⟩
  barrier : broken first = true
  size : first < opening.workers.size

namespace Job.Move

variable {job : Job} {s s' : JobState} {w : Nat} {deed : Option Deed}

theorem robbed_of_ne (h : Move job s w deed s') {v : Nat} (hv : v ≠ w) :
    deed.bind (Deed.robbed? v) = none := by
  cases h with
  | @take worker q access deque found rest hworker haccess =>
      rcases access with - | - | -
      · rfl
      · simp [Deed.robbed?, hv.symm]
      · rfl
  | _ => rfl

theorem completed_of_mem (h : Move job s w deed s') {v index : Nat}
    (hdeed : Deed.completed v index ∈ deed.toList) :
    v = w ∧ ∃ bits origin, s.phase w = .storing index origin bits := by
  cases h with
  | @store worker i origin bits hworker hphase =>
      cases List.mem_singleton.mp hdeed
      exact ⟨rfl, bits, origin, (JobState.phase_eq hworker).trans hphase⟩
  | take | unwind => cases List.mem_singleton.mp hdeed
  | _ => cases hdeed

/-- What a step does to what is known of the worker that takes it. -/
theorem barredAt (h : Move job s w deed s') {opening : JobState} {broken : Nat → Bool} {first : Nat}
    (hdamaged : JobState.Damaged job opening broken first) (hopen : s.gate.isOpen = true)
    (hfit : s.Fit) (hsize : s.workers.size = opening.workers.size)
    (hstill : ∀ q, broken q = true → s.deques[q]? = opening.deques[q]?) {visited : List Nat}
    (hbarred : BarredAt broken first w (s.phase w) visited (s.tally w).stolen) :
    BarredAt broken first w (s'.phase w) (visited ++ (deed.bind (Deed.robbed? w)).toList)
      (s'.tally w).stolen := by
  have hcount : first < s.workers.size := hsize ▸ hdamaged.size
  cases h with
  | @enter worker told hworker hphase htold =>
      rw [JobState.phase_setPhase_self (by exact JobState.lt_size hworker),
        JobState.tally_setPhase hworker, Gate.eq_true_of_isOpen hopen htold]
      rw [JobState.phase_eq hworker, hphase] at hbarred
      rw [Option.bind_none, Option.toList_none, List.append_nil]
      exact hbarred.quiet hbarred.barred (Nat.le_refl _)
  | @take worker q access deque found rest hworker haccess hdeque hlock happly =>
      rw [JobState.phase_setPhase_self (by exact JobState.lt_size hworker),
        JobState.tally_setPhase (by exact hworker)]
      rw [JobState.phase_eq hworker] at hbarred
      have hq : broken q = false := by
        rcases hbroken : broken q with - | -
        · rfl
        · have hpoisoned := hdamaged.poisoned q deque (hstill q hbroken ▸ hdeque) hbroken
          rw [hlock] at hpoisoned
          exact absurd hpoisoned (by decide)
      have hpeer : worker.phase.peer? = some q → q ≠ w := by
        rw [← JobState.phase_eq hworker]
        exact fun hpeer => (hfit.peers w q hpeer).2
      have hreceived := hbarred.receive hdamaged.barrier hcount haccess hpeer hq found
      rcases access with - | - | -
      · exact hreceived
      · have hrobbed : Deed.robbed? w (.accessed w q .takeBack found) = some q := if_pos rfl
        rw [Option.bind_some, hrobbed]
        exact hreceived
      · exact hreceived
  | @breach worker q access deque hworker haccess =>
      rw [Job.breach, hdamaged.policy, JobState.phase_setPhase_self (JobState.lt_size hworker),
        JobState.tally_setPhase hworker, Option.bind_none, Option.toList_none, List.append_nil]
      exact hbarred.quiet ⟨rfl, rfl⟩ (Nat.le_add_right _ _)
  | @call worker index origin hworker hphase =>
      rw [JobState.phase_setPhase_self (by exact JobState.lt_size hworker),
        JobState.tally_setPhase (by exact hworker), Option.bind_none, Option.toList_none,
        List.append_nil]
      rw [JobState.phase_eq hworker, hphase] at hbarred
      exact hbarred.quiet hbarred.barred (Nat.le_refl _)
  | @unwind worker index origin cause hworker hphase hcause =>
      rw [hdamaged.kernel index] at hcause
      cases hcause
  | @read worker index origin hworker hphase =>
      rw [JobState.phase_setPhase_self (by exact JobState.lt_size hworker),
        JobState.tally_setPhase hworker, Option.bind_none, Option.toList_none, List.append_nil]
      rw [JobState.phase_eq hworker, hphase] at hbarred
      exact hbarred.quiet hbarred.barred (Nat.le_refl _)
  | @store worker index origin bits hworker hphase =>
      rw [JobState.phase_setPhase_self (by exact JobState.lt_size hworker),
        JobState.tally_eq (JobState.workers_setPhase_self (by exact JobState.lt_size hworker) _ _)]
      rw [JobState.phase_eq hworker, hphase, JobState.tally_eq hworker] at hbarred
      obtain ⟨hself, horigin⟩ := hbarred.barred
      change BarredAt broken first w _ (visited ++ []) _
      rw [List.append_nil]
      refine hbarred.quiet (Phase.barred_resume hdamaged.barrier hcount hself horigin) ?_
      cases origin with
      | own => exact Nat.le_refl _
      | peer peer =>
          rw [Phase.resume, Phase.loot?_sweepFrom]
          exact Nat.le_refl _

end Job.Move

/-- The state of a job that began with broken deques. -/
structure Course.Barred (opening : JobState) (broken : Nat → Bool) (first : Nat) (c : Course) :
    Prop where
  unheld : c.state.Unheld
  fit : c.state.Fit
  size : c.state.workers.size = opening.workers.size
  still : ∀ q, broken q = true → c.state.deques[q]? = opening.deques[q]?
  workers : ∀ w, BarredAt broken first w (c.state.phase w) (c.robbed w) (c.state.tally w).stolen
  spared : ∀ w, broken w = true →
    c.state.tally w = {} ∧ ∀ index, Deed.completed w index ∉ c.deeds

namespace Job.Move

variable {job : Job} {opening s s' : JobState} {broken : Nat → Bool} {first w : Nat}
  {deed : Option Deed}

/-- Nothing happens to a broken deque. -/
theorem still (h : Move job s w deed s') (hdamaged : JobState.Damaged job opening broken first)
    (hstill : ∀ q, broken q = true → s.deques[q]? = opening.deques[q]?) {q : Nat}
    (hbroken : broken q = true) : s'.deques[q]? = opening.deques[q]? := by
  rw [← hstill q hbroken]
  cases h with
  | @take worker p access deque found rest hworker haccess hdeque hlock =>
      have hne : p ≠ q := by
        rintro rfl
        have hpoisoned := hdamaged.poisoned p deque (hstill p hbroken ▸ hdeque) hbroken
        rw [hlock] at hpoisoned
        exact absurd hpoisoned (by decide)
      exact Array.getElem?_setIfInBounds_ne hne
  | breach =>
      rw [Job.breach, hdamaged.policy]
      rfl
  | _ => rfl

/-- A worker whose own deque is broken completes nothing. -/
theorem spared (h : Move job s w deed s') (hbroken : broken w = true) {visited : List Nat}
    (hbarred : (s.phase w).Barred broken first w visited) :
    s'.tally w = s.tally w ∧ ∀ index, Deed.completed w index ∉ deed.toList := by
  have hnot (index : Nat) : Deed.completed w index ∉ deed.toList := by
    intro hmem
    obtain ⟨-, bits, origin, hphase⟩ := h.completed_of_mem hmem
    rw [hphase] at hbarred
    rw [hbarred.1] at hbroken
    cases hbroken
  refine ⟨?_, hnot⟩
  cases h with
  | enter hworker | unwind hworker | read hworker => exact JobState.tally_setPhase hworker _ w
  | take hworker | call hworker => exact JobState.tally_setPhase (by exact hworker) _ w
  | breach hworker =>
      unfold Job.breach
      split
      · rfl
      · exact JobState.tally_setPhase hworker _ w
  | store => exact absurd List.mem_cons_self (hnot _)

end Job.Move

namespace Course.Barred

variable {job : Job} {opening : JobState} {broken : Nat → Bool} {first : Nat} {c : Course}

theorem robbed_note (c : Course) (deed : Option Deed) (s : JobState) (w : Nat) :
    (c.note deed s).robbed w = c.robbed w ++ (deed.bind (Deed.robbed? w)).toList :=
  Course.filterMap_append_toList (Deed.robbed? w) c.deeds deed

theorem move (h : c.Barred opening broken first)
    (hdamaged : JobState.Damaged job opening broken first) (hopen : c.state.gate.isOpen = true)
    {w : Nat} {deed : Option Deed} {s' : JobState} (hmove : Job.Move job c.state w deed s') :
    (c.note deed s').Barred opening broken first := by
  refine ⟨hmove.unheld h.unheld, hmove.fit h.fit, hmove.size_workers.trans h.size, ?_, ?_, ?_⟩
  · intro q hbroken
    exact hmove.still hdamaged h.still hbroken
  · intro v
    rw [robbed_note, Course.state_note]
    by_cases hv : v = w
    · subst hv
      exact hmove.barredAt hdamaged hopen h.fit h.size h.still (h.workers v)
    · rw [hmove.phase_of_ne hv, hmove.tally_of_ne hv, hmove.robbed_of_ne hv, Option.toList_none,
        List.append_nil]
      exact h.workers v
  · intro v hbroken
    obtain ⟨htally, hdeeds⟩ := h.spared v hbroken
    rw [Course.state_note]
    by_cases hv : v = w
    · subst hv
      obtain ⟨hsame, hnew⟩ := hmove.spared hbroken (h.workers v).barred
      refine ⟨hsame.trans htally, fun index hmem => ?_⟩
      exact (List.mem_append.mp hmem).elim (hdeeds index) (hnew index)
    · refine ⟨(hmove.tally_of_ne hv).trans htally, fun index hmem => ?_⟩
      rcases List.mem_append.mp hmem with hold | hnew
      · exact hdeeds index hold
      · exact hv (hmove.completed_of_mem hnew).1

theorem start (h : c.Barred opening broken first) {w : Nat} (hidle : c.state.phase w = .idle) :
    Barred opening broken first { c with state := c.state.start w } := by
  refine ⟨?_, h.fit.start w, (c.state.size_workers_start w).trans h.size, ?_, ?_, ?_⟩
  · unfold JobState.Unheld
    rw [JobState.deques_start]
    exact h.unheld
  · rw [JobState.deques_start]
    exact h.still
  · intro v
    rw [JobState.tally_start]
    rcases c.state.phase_start w v with hsame | ⟨rfl, hgate⟩
    · rw [hsame]
      exact h.workers v
    · have hbefore := h.workers v
      rw [hidle] at hbefore
      rw [hgate]
      exact hbefore.quiet hbefore.barred (Nat.le_refl _)
  · intro v hbroken
    rw [JobState.tally_start]
    exact h.spared v hbroken

theorem keepsOnce (hdamaged : JobState.Damaged job opening broken first) :
    job.KeepsOnce (Barred opening broken first) where
  unheld _ h := h.unheld
  move _ _ _ _ h hopen hmove := h.move hdamaged hopen hmove
  start _ _ h hidle := h.start hidle
  gate _ _ h := ⟨h.unheld, ⟨h.fit.sizes, h.fit.peers⟩, h.size, h.still, h.workers, h.spared⟩

theorem poisoned {memory : Memory} {gate : Gate} {spans : List Span} (w : Nat) :
    BarredAt broken first w (((JobState.initial memory gate spans).poison broken).phase w) []
      (((JobState.initial memory gate spans).poison broken).tally w).stolen := by
  rw [JobState.phase_poison, JobState.tally_poison, JobState.phase_initial,
    JobState.tally_initial]
  refine ⟨rfl, List.Pairwise.nil, fun q hq => absurd hq List.not_mem_nil, Nat.le_refl 0⟩

theorem initial (memory : Memory) (gate : Gate) (spans : List Span) :
    Barred ((JobState.initial memory gate spans).poison broken) broken first
      { state := (JobState.initial memory gate spans).poison broken } where
  unheld := (JobState.unheld_initial memory gate spans).poison broken
  fit := (JobState.fit_initial memory gate spans).poison broken
  size := rfl
  still _ _ := rfl
  workers := poisoned
  spared w _ := ⟨JobState.tally_initial memory gate spans w, fun _ => List.not_mem_nil⟩

end Course.Barred

theorem JobState.damaged_initial {job : Job} (memory : Memory) (gate : Gate) {spans : List Span}
    {broken : Nat → Bool} {first : Nat} (hpolicy : job.onBreach = .unwind)
    (hkernel : ∀ index, job.unwinding index = none) (hfirst : first < spans.length)
    (hbroken : broken first = true) :
    Damaged job ((initial memory gate spans).poison broken) broken first where
  policy := hpolicy
  kernel := hkernel
  poisoned q deque hdeque hq := by
    obtain ⟨before, -, -, hlock⟩ := getElem?_poison hdeque
    rw [hlock, if_pos hq]
  barrier := hbroken
  size := Nat.lt_of_lt_of_eq hfirst (size_workers_initial memory gate spans).symm

/-- What becomes of a team at a job that begins with broken deques. -/
structure Course.Foiled (opening : JobState) (broken : Nat → Bool) (team : List Nat) (c : Course) :
    Prop where
  /-- A worker of the team has raised what it saw of a broken deque, or can go on. -/
  ends : ∀ w ∈ team, c.state.phase w = .dead none (.breach (.lockProtocol Lock.poisoned)) ∨
    c.state.isReady w = true
  deaths : ∀ w held cause, c.state.phase w = .dead held cause →
    held = none ∧ cause = .breach (.lockProtocol Lock.poisoned)
  unfinished : ∀ w, c.state.phase w ≠ .finished
  still : ∀ q, broken q = true → c.state.deques[q]? = opening.deques[q]?
  called : c.state.called.Nodup
  spared : ∀ w, broken w = true →
    c.state.tally w = {} ∧ ∀ index, Deed.completed w index ∉ c.deeds
  /-- A second sweep would begin again at the lowest deque. -/
  visits : ∀ w, (c.visits w).Pairwise (· < ·)
  stolen : ∀ w, ∀ first < opening.workers.size, broken first = true →
    (c.state.tally w).stolen ≤ ((List.range first).filter (· ≠ w)).length

namespace Course.Barred

variable {opening : JobState} {broken : Nat → Bool} {first : Nat} {c : Course}

theorem unfinished (h : c.Barred opening broken first) (w : Nat) :
    c.state.phase w ≠ .finished := by
  intro hfinished
  have hbarred := (h.workers w).barred
  rw [hfinished] at hbarred
  exact hbarred

theorem dead (h : c.Barred opening broken first) {w : Nat} {held : Option Nat} {cause : Payload}
    (hdead : c.state.phase w = .dead held cause) :
    held = none ∧ cause = .breach (.lockProtocol Lock.poisoned) := by
  have hbarred := (h.workers w).barred
  rw [hdead] at hbarred
  exact hbarred

theorem dead_of_isOver (h : c.Barred opening broken first) {w : Nat}
    (hover : (c.state.phase w).isOver = true) :
    c.state.phase w = .dead none (.breach (.lockProtocol Lock.poisoned)) := by
  cases hphase : c.state.phase w with
  | finished => exact absurd hphase (h.unfinished w)
  | dead held cause =>
      obtain ⟨rfl, rfl⟩ := h.dead hphase
      rfl
  | _ =>
      rw [hphase] at hover
      cases hover

end Course.Barred

namespace Job

/-- A team at an open gate in front of some deques that are broken: every member comes to its end in
a bounded number of steps, and that end is a breach. -/
theorem foiled_of_team {job : Job} {memory : Memory} {gate : Gate} {spans : List Span}
    {broken : Nat → Bool} {team turns : List Nat} {c : Course} (hpolicy : job.onBreach = .unwind)
    (hkernel : ∀ index, job.unwinding index = none) (hopen : gate.isOpen = true)
    (hdisjoint : spans.Pairwise fun a b => List.Disjoint a.toList b.toList)
    (hteam : ∀ w ∈ team, w < spans.length)
    (hbroken : ∃ q < spans.length, broken q = true)
    (hfollow : job.follow (team.map .start ++ turns.map .step)
      { state := (JobState.initial memory gate spans).poison broken } = some c) :
    c.Foiled ((JobState.initial memory gate spans).poison broken) broken team ∧
      turns.length ≤ (2 * spans.length + 6) * (spans.flatMap Span.toList).length +
        team.length * (2 * spans.length + 4) := by
  let opening := (JobState.initial memory gate spans).poison broken
  have hsize : opening.workers.size = spans.length :=
    JobState.size_workers_initial memory gate spans
  have hlasting : opening.Lasting job :=
    ((JobState.Unbroken.initial memory gate spans).lasting job).poison hpolicy broken
  have hfit : opening.Fit := (JobState.fit_initial memory gate spans).poison broken
  have hbarred (first : Nat) (hfirst : first < spans.length) (hq : broken first = true) :
      c.Barred opening broken first :=
    (Course.Barred.keepsOnce (JobState.damaged_initial memory gate hpolicy hkernel hfirst hq)).run
      (.initial memory gate spans) (JobState.waiting_initial memory gate spans) hopen hfollow
  obtain ⟨q, hq, hbreach⟩ := hbroken
  have h := hbarred q hq hbreach
  have hbooks := (Course.Balanced.initial memory gate spans).poison broken
  have hbalanced := (Course.Balanced.keeps job _).follow hbooks hfollow
  refine ⟨?_, ?_⟩
  · exact {
      ends := by
        intro w hw
        exact (over_or_ready_of_team hlasting hfit (Gate.isSome_wait?_of_isOpen hopen) hfollow hw
          (hsize ▸ hteam w hw)).imp_left h.dead_of_isOver
      deaths := fun w held cause hdead => h.dead hdead
      unfinished := h.unfinished
      still := h.still
      called := hbalanced.called_nodup (Span.nodup_flatMap_toList hdisjoint)
      spared := h.spared
      visits := fun w => (h.workers w).visits_ascending
      stolen := by
        intro w first hfirst hq
        exact ((hbarred first (hsize ▸ hfirst) hq).workers w).stolen_le }
  · have hle := length_le_of_team hlasting hfollow
    rwa [JobState.effort_poison, JobState.effort_initial, hsize] at hle

end Job

end Elementwise
