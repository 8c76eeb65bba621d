import Elementwise.Proofs.Job.Effort
import Elementwise.Proofs.Job.ExactlyOnce
import Elementwise.Proofs.Job.Gathering
import Mathlib.Algebra.BigOperators.Group.Finset.Basic
import Mathlib.Algebra.BigOperators.Group.Finset.Piecewise
import Mathlib.Algebra.Order.BigOperators.Group.Finset

/-!
How often the deques are operated on. A worker finds its own deque empty once, and that pays for one
sweep; every index it steals pays for another sweep, whoever took what in the meantime. So the
number of operations is bounded by the number of indices, and every run of a team comes to an end.
-/

namespace Elementwise

namespace Deed

/-- The access that a deque has answered. -/
def access? : Deed → Option Access
  | accessed _ _ access _ => some access
  | _ => none

@[simp] theorem access?_accessed (w q : Nat) (access : Access) (found : Option Nat) :
    (accessed w q access found).access? = some access := rfl

@[simp] theorem taken?_accessed (w q : Nat) (access : Access) (found : Option Nat) :
    (accessed w q access found).taken? = found := rfl

end Deed

namespace Course

/-- The number of operations of a kind that the deques have answered. -/
def operations (c : Course) (access : Access) : Nat :=
  c.deeds.countP fun deed => deed.access? = some access

/-- The number of indices handed out by operations of a kind. -/
def takes (c : Course) (access : Access) : Nat :=
  c.deeds.countP fun deed => deed.access? = some access && deed.taken?.isSome

theorem operations_note (c : Course) (deed : Option Deed) (s : JobState) (access : Access) :
    (c.note deed s).operations access =
      c.operations access + deed.toList.countP fun deed => deed.access? = some access :=
  List.countP_append

theorem takes_note (c : Course) (deed : Option Deed) (s : JobState) (access : Access) :
    (c.note deed s).takes access = c.takes access +
      deed.toList.countP fun deed => deed.access? = some access && deed.taken?.isSome :=
  List.countP_append

theorem takes_le (c : Course) : c.takes .takeFront + c.takes .takeBack ≤ c.taken.length := by
  unfold takes taken
  induction c.deeds with
  | nil => exact Nat.le_refl 0
  | cons deed deeds ih =>
      rcases deed with ⟨w, q, access, found⟩ | ⟨w, index⟩ | ⟨w, index⟩
      · rcases found with - | index
        · simpa [List.filterMap_cons] using ih
        · have hone : (if access = .takeFront then 1 else 0) +
              (if access = .takeBack then 1 else 0) ≤ 1 := by
            rcases access with - | - | - <;> decide
          simp only [List.countP_cons, List.filterMap_cons, Deed.access?_accessed,
            Deed.taken?_accessed, Option.some.injEq, Option.isSome_some, Bool.and_true,
            decide_eq_true_eq, List.length_cons]
          omega
      · exact ih
      · exact ih

end Course

/-- The number of other workers below a peer. -/
def peersBelow (self peer : Nat) : Nat := if self < peer then peer - 1 else peer

/-- The visits that a worker may still pay with an index in hand: the rest of the sweep in which it
was stolen, and one more sweep. -/
def Origin.slack (self count : Nat) : Origin → Nat
  | own => 0
  | peer worker => count - 1 - (peersBelow self worker + 1) + (count - 1)

namespace Phase

/-- 1 for a worker that is past its own deque, and 0 before. -/
def drained : Phase → Nat
  | idle | atGate | draining => 0
  | holding _ origin | calling _ origin | storing _ origin _ => if origin = .own then 0 else 1
  | sweeping .. | finished | dead .. => 1

/-- A bound for the visits to peers that are paid for and still to come. -/
def slack (self count : Nat) : Phase → Nat
  | sweeping peer found => count - 1 - peersBelow self peer + if found then count - 1 else 0
  | holding _ origin | calling _ origin | storing _ origin _ => origin.slack self count
  | _ => 0

theorem drained_le_one (phase : Phase) : phase.drained ≤ 1 := by
  cases phase with
  | holding index origin | calling index origin | storing index origin =>
      simp only [drained]
      split <;> decide
  | _ => simp [drained]

theorem drained_sweepFrom (self count peer : Nat) (found : Bool) :
    (sweepFrom self count peer found).drained = 1 :=
  sweepFrom_induction (motive := fun phase => phase.drained = 1) (fun _ _ => rfl) rfl ..

theorem drained_le_resume (self count index : Nat) (origin : Origin) (bits : UInt64) :
    (storing index origin bits).drained ≤ (resume self count origin).drained := by
  cases origin with
  | own => exact Nat.le_refl 0
  | peer peer => exact Nat.le_of_eq (drained_sweepFrom ..).symm

theorem peersBelow_skip (self peer : Nat) :
    peersBelow self (if peer = self then peer + 1 else peer) = peersBelow self peer := by
  unfold peersBelow
  rcases Nat.lt_trichotomy self peer with hlt | rfl | hlt
  · simp [hlt, Nat.ne_of_gt hlt]
  · simp
  · simp [Nat.not_lt_of_gt hlt, Nat.ne_of_lt hlt]

theorem peersBelow_succ {self peer : Nat} (hpeer : peer ≠ self) :
    peersBelow self (peer + 1) = peersBelow self peer + 1 := by
  unfold peersBelow
  rcases Nat.lt_or_gt_of_ne hpeer with hlt | hlt
  · rw [if_neg (by omega), if_neg (by omega)]
  · rw [if_pos (by omega), if_pos hlt]
    omega

/-- There is somebody to visit as long as a sweep has not come to its end. -/
theorem peersBelow_lt {self count peer : Nat} (hself : self < count)
    (hpeer : peer < count ∧ peer ≠ self) : peersBelow self peer < count - 1 := by
  unfold peersBelow
  split <;> omega

theorem slack_sweepFrom_le (self count peer : Nat) (found : Bool) :
    (sweepFrom self count peer found).slack self count ≤
      count - 1 - peersBelow self peer + if found then count - 1 else 0 := by
  rw [← peersBelow_skip self peer]
  simp only [sweepFrom]
  generalize (if peer = self then peer + 1 else peer) = next
  split
  · exact Nat.le_refl _
  · rcases found with - | -
    · exact Nat.zero_le _
    · simp only [if_true, slack, if_false, Bool.false_eq_true, Nat.add_zero]
      exact Nat.le_trans (Nat.sub_le _ _) (Nat.le_add_left _ _)

/-- An operation at the front finds an index, or is the last one. -/
theorem front_paid {phase : Phase} {self q : Nat} {access : Access}
    (h : phase.access? self = some (q, access)) (count : Nat) (found : Option Nat) :
    (if access = .takeFront then 1 else 0) + phase.drained ≤
      (if access = .takeFront then found.toList.length else 0) +
        (phase.receive self count found).drained := by
  cases phase with
  | draining =>
      cases h
      rcases found with - | index
      · change 1 + 0 ≤ 0 + (sweepFrom self count 0 false).drained
        rw [drained_sweepFrom]
      · exact Nat.le_refl 1
  | sweeping peer any =>
      cases h
      rcases found with - | index
      · change 0 + 1 ≤ 0 + (sweepFrom self count (q + 1) any).drained
        rw [drained_sweepFrom]
      · exact Nat.le_refl 1
  | _ => cases h

/-- An operation at the back was paid for, and each index it finds pays for a whole sweep. -/
theorem back_paid {phase : Phase} {self q : Nat} {access : Access}
    (h : phase.access? self = some (q, access)) {count : Nat} (hself : self < count)
    (hpeer : ∀ peer, phase.peer? = some peer → peer < count ∧ peer ≠ self) (found : Option Nat) :
    (if access = .takeBack then 1 else 0) + (phase.receive self count found).slack self count +
        (count - 1) * phase.drained ≤
      phase.slack self count +
        (count - 1) * ((if access = .takeBack then found.toList.length else 0) +
          (phase.receive self count found).drained) := by
  cases phase with
  | draining =>
      cases h
      rcases found with - | index
      · have hle := slack_sweepFrom_le self count 0 false
        change 0 + (sweepFrom self count 0 false).slack self count + (count - 1) * 0 ≤
          0 + (count - 1) * (0 + (sweepFrom self count 0 false).drained)
        rw [drained_sweepFrom]
        simp only [Bool.false_eq_true, if_false] at hle
        omega
      · exact Nat.zero_le _
  | sweeping peer any =>
      cases h
      have hvisited := peersBelow_lt hself (hpeer _ rfl)
      have hnext := peersBelow_succ (hpeer _ rfl).2
      rcases found with - | index
      · have hle := slack_sweepFrom_le self count (q + 1) any
        change 1 + (sweepFrom self count (q + 1) any).slack self count + (count - 1) * 1 ≤
          (count - 1 - peersBelow self q + if any then count - 1 else 0) +
            (count - 1) * (0 + (sweepFrom self count (q + 1) any).drained)
        rw [drained_sweepFrom]
        omega
      · change 1 + (count - 1 - (peersBelow self q + 1) + (count - 1)) + (count - 1) * 1 ≤
          (count - 1 - peersBelow self q + if any then count - 1 else 0) + (count - 1) * (1 + 1)
        omega
  | _ => cases h

theorem back_paid_of_le {self count : Nat} {before after : Phase}
    (hslack : after.slack self count ≤ before.slack self count)
    (hdrained : before.drained ≤ after.drained) :
    0 + after.slack self count + (count - 1) * before.drained ≤
      before.slack self count + (count - 1) * (0 + after.drained) := by
  have hpaid := Nat.mul_le_mul_left (count - 1) hdrained
  rw [Nat.zero_add, Nat.zero_add]
  exact Nat.add_le_add hslack hpaid

theorem slack_resume_le (self count : Nat) {origin : Origin}
    (hpeer : ∀ peer, origin.peer? = some peer → peer ≠ self) :
    (resume self count origin).slack self count ≤ origin.slack self count := by
  cases origin with
  | own => exact Nat.le_refl (slack self count draining)
  | peer peer =>
      have hle := slack_sweepFrom_le self count (peer + 1) true
      rw [peersBelow_succ (hpeer peer rfl), if_pos rfl] at hle
      exact hle

end Phase

namespace JobState

/-- The sum of a number that depends on the phase of each worker. -/
def sum (s : JobState) (f : Nat → Phase → Nat) : Nat :=
  ∑ w ∈ Finset.range s.workers.size, f w (s.phase w)

theorem sum_congr_phase {s s' : JobState} (hsize : s'.workers.size = s.workers.size)
    {f : Nat → Phase → Nat} (h : ∀ w, f w (s'.phase w) = f w (s.phase w)) :
    s'.sum f = s.sum f := by
  unfold sum
  rw [hsize]
  exact Finset.sum_congr rfl fun w _ => h w

end JobState

namespace Job.Move

variable {job : Job} {s s' : JobState} {w : Nat} {deed : Option Deed}

theorem lt_size (h : Move job s w deed s') : w < s.workers.size := by
  by_contra hout
  have hrunning := h.isRunning
  rw [JobState.phase_of_none (Array.getElem?_eq_none (Nat.le_of_not_lt hout))] at hrunning
  cases hrunning

theorem sum_eq (h : Move job s w deed s') (f : Nat → Phase → Nat) :
    s'.sum f + f w (s.phase w) = s.sum f + f w (s'.phase w) := by
  have hmem : w ∈ Finset.range s.workers.size := Finset.mem_range.mpr h.lt_size
  have hrest : ∑ v ∈ (Finset.range s.workers.size).erase w, f v (s'.phase v) =
      ∑ v ∈ (Finset.range s.workers.size).erase w, f v (s.phase v) :=
    Finset.sum_congr rfl fun v hv => by rw [h.phase_of_ne (Finset.ne_of_mem_erase hv)]
  unfold JobState.sum
  rw [h.size_workers, ← Finset.add_sum_erase _ _ hmem, ← Finset.add_sum_erase _ _ hmem, hrest]
  omega

theorem front_paid (h : Move job s w deed s') :
    (deed.toList.countP fun deed => deed.access? = some .takeFront) + (s.phase w).drained ≤
      (deed.toList.countP fun deed => deed.access? = some .takeFront && deed.taken?.isSome) +
        (s'.phase w).drained := by
  cases h with
  | @enter worker told hworker hphase =>
      rw [JobState.phase_eq hworker, hphase]
      exact Nat.zero_le _
  | @take worker q access deque found rest hworker haccess =>
      have hpaid := Phase.front_paid haccess s.workers.size found
      rw [JobState.phase_setPhase_self (by exact JobState.lt_size hworker),
        JobState.phase_eq hworker]
      rcases found with - | index
      · simpa using hpaid
      · simpa using hpaid
  | @breach worker q access deque hworker =>
      unfold Job.breach
      split
      · exact Nat.le_refl _
      · rw [JobState.phase_setPhase_self (by exact JobState.lt_size hworker)]
        exact Nat.add_le_add_left (Phase.drained_le_one _) 0
  | call hworker hphase | read hworker hphase =>
      rw [JobState.phase_setPhase_self (by exact JobState.lt_size hworker),
        JobState.phase_eq hworker, hphase]
      exact Nat.le_refl _
  | unwind hworker =>
      rw [JobState.phase_setPhase_self (by exact JobState.lt_size hworker)]
      exact Nat.add_le_add_left (Phase.drained_le_one _) 0
  | @store worker index origin bits hworker hphase =>
      rw [JobState.phase_setPhase_self (by exact JobState.lt_size hworker),
        JobState.phase_eq hworker, hphase]
      exact Nat.add_le_add_left (Phase.drained_le_resume ..) 0

theorem back_paid (h : Move job s w deed s') (hfit : s.Fit) :
    (deed.toList.countP fun deed => deed.access? = some .takeBack) +
        (s'.phase w).slack w s.workers.size + (s.workers.size - 1) * (s.phase w).drained ≤
      (s.phase w).slack w s.workers.size + (s.workers.size - 1) *
        ((deed.toList.countP fun deed => deed.access? = some .takeBack && deed.taken?.isSome) +
          (s'.phase w).drained) := by
  have hpeers := hfit.peers w
  cases h with
  | @enter worker told hworker hphase =>
      rw [JobState.phase_setPhase_self (by exact JobState.lt_size hworker),
        JobState.phase_eq hworker, hphase]
      rcases told with - | -
      · exact Nat.zero_le _
      · exact Nat.zero_le _
  | @take worker q access deque found rest hworker haccess =>
      rw [JobState.phase_eq hworker] at hpeers
      have hpaid := Phase.back_paid haccess (JobState.lt_size hworker) hpeers found
      rw [JobState.phase_setPhase_self (by exact JobState.lt_size hworker),
        JobState.phase_eq hworker]
      rcases found with - | index
      · simpa using hpaid
      · simpa using hpaid
  | @breach worker q access deque hworker =>
      unfold Job.breach
      split
      · exact Phase.back_paid_of_le (Nat.le_refl _) (Nat.le_refl _)
      · rw [JobState.phase_setPhase_self (by exact JobState.lt_size hworker)]
        exact Phase.back_paid_of_le (Nat.zero_le _) (Phase.drained_le_one _)
  | call hworker hphase | read hworker hphase =>
      rw [JobState.phase_setPhase_self (by exact JobState.lt_size hworker),
        JobState.phase_eq hworker, hphase]
      exact Phase.back_paid_of_le (Nat.le_refl _) (Nat.le_refl _)
  | unwind hworker =>
      rw [JobState.phase_setPhase_self (by exact JobState.lt_size hworker)]
      exact Phase.back_paid_of_le (Nat.zero_le _) (Phase.drained_le_one _)
  | @store worker index origin bits hworker hphase =>
      rw [JobState.phase_setPhase_self (by exact JobState.lt_size hworker),
        JobState.phase_eq hworker, hphase]
      rw [JobState.phase_eq hworker, hphase] at hpeers
      refine Phase.back_paid_of_le ?_ (Phase.drained_le_resume ..)
      exact Phase.slack_resume_le w s.workers.size fun peer hpeer => (hpeers peer hpeer).2

end Job.Move

/-- The books of the operations. A failure at the front, like an index from the back, is charged
with a sweep, which visits every other worker once. -/
structure Course.Charged (c : Course) : Prop where
  unheld : c.state.Unheld
  fit : c.state.Fit
  fronts : c.operations .takeFront ≤ c.takes .takeFront + c.state.sum fun _ => Phase.drained
  backs : c.operations .takeBack +
      c.state.sum (fun w phase => phase.slack w c.state.workers.size) ≤
    (c.state.workers.size - 1) *
      (c.takes .takeBack + c.state.sum fun _ => Phase.drained)

namespace Course.Charged

variable {c : Course}

theorem initial (memory : Memory) (gate : Gate) (spans : List Span) :
    Charged { state := .initial memory gate spans } where
  unheld := JobState.unheld_initial memory gate spans
  fit := JobState.fit_initial memory gate spans
  fronts := Nat.zero_le _
  backs := by
    rw [JobState.sum, Finset.sum_eq_zero fun w _ => by rw [JobState.phase_initial]; rfl]
    exact Nat.zero_le _

theorem move (h : c.Charged) {job : Job} {w : Nat} {deed : Option Deed} {s' : JobState}
    (hmove : Job.Move job c.state w deed s') : (c.note deed s').Charged := by
  have hdrained := hmove.sum_eq fun _ => Phase.drained
  refine ⟨hmove.unheld h.unheld, hmove.fit h.fit, ?_, ?_⟩
  · have hpaid := hmove.front_paid
    have hbefore := h.fronts
    rw [operations_note, takes_note, state_note]
    omega
  · have hpaid := hmove.back_paid h.fit
    have hbefore := h.backs
    have hslack := hmove.sum_eq fun w phase => phase.slack w c.state.workers.size
    rw [operations_note, takes_note, state_note, hmove.size_workers]
    have hcharge := congrArg ((c.state.workers.size - 1) * ·) hdrained
    simp only [Nat.mul_add] at hpaid hbefore hcharge ⊢
    omega

theorem start (h : c.Charged) {w : Nat} (hidle : c.state.phase w = .idle) :
    Charged { c with state := c.state.start w } := by
  have hsum (f : Nat → Phase → Nat) (hf : f w .atGate = f w .idle) :
      (c.state.start w).sum f = c.state.sum f := by
    refine JobState.sum_congr_phase (c.state.size_workers_start w) fun v => ?_
    rcases c.state.phase_start w v with hsame | ⟨rfl, hgate⟩
    · rw [hsame]
    · rw [hgate, hidle, hf]
  refine ⟨?_, h.fit.start w, ?_, ?_⟩
  · unfold JobState.Unheld
    rw [JobState.deques_start]
    exact h.unheld
  · rw [hsum _ rfl]
    exact h.fronts
  · rw [JobState.size_workers_start, hsum _ rfl, hsum _ rfl]
    exact h.backs

theorem keepsOnce (job : Job) : job.KeepsOnce Charged where
  unheld _ h := h.unheld
  move _ _ _ _ h _ hmove := h.move hmove
  start _ _ h hidle := h.start hidle
  gate _ _ h := ⟨h.unheld, ⟨h.fit.sizes, h.fit.peers⟩, h.fronts, h.backs⟩

end Course.Charged

theorem JobState.sum_drained_le {s : JobState} {team : List Nat}
    (hidle : ∀ w, w ∉ team → s.phase w = .idle) :
    (s.sum fun _ => Phase.drained) ≤ team.length := by
  calc
    (s.sum fun _ => Phase.drained)
        ≤ ∑ w ∈ Finset.range s.workers.size, if w ∈ team then 1 else 0 := by
      refine Finset.sum_le_sum fun w _ => ?_
      split
      · exact Phase.drained_le_one _
      · rename_i hw
        rw [hidle w hw]
        exact Nat.le_refl 0
    _ = ((Finset.range s.workers.size).filter (· ∈ team)).card := by
      rw [Finset.card_filter]
    _ ≤ team.toFinset.card := by
      refine Finset.card_le_card fun w hw => ?_
      exact List.mem_toFinset.mpr (Finset.mem_filter.mp hw).2
    _ ≤ team.length := team.toFinset_card_le

/-- Where the kernel gives all results and no lock is poisoned nobody dies. -/
theorem Course.Explained.finished {job : Job} {c : Course} (h : c.Explained job)
    (hunbroken : c.state.Unbroken) (hkernel : ∀ index, job.unwinding index = none) {w : Nat}
    (hover : (c.state.phase w).isOver = true) : c.state.phase w = .finished := by
  have hexplained := h.phases w
  cases hphase : c.state.phase w with
  | finished => rfl
  | dead held cause =>
      rw [hphase] at hexplained
      rcases held with - | index
      · obtain ⟨deque, hdeque, hlock⟩ := hexplained
        exact absurd hlock (hunbroken.not_poisoned hdeque)
      · obtain ⟨hcause, -⟩ := hexplained
        rw [hkernel index] at hcause
        cases hcause
  | _ =>
      rw [hphase] at hover
      cases hover

namespace Job

/-- Whatever the ranges, the team at the open gate and the order of steps: the team operates on
deques a bounded number of times, and comes to an end. -/
theorem operations_bounded (job : Job) (memory : Memory) (gate : Gate) (spans : List Span)
    (team : List Nat) (hopen : gate.isOpen = true) (hkernel : ∀ index, job.unwinding index = none)
    (hteam : ∀ w ∈ team, w < spans.length) :
    (∀ (turns : List Nat) (c : Course), job.follow (team.map .start ++ turns.map .step)
        { state := .initial memory gate spans } = some c →
      c.operations .takeFront + c.operations .takeBack ≤
          c.takes .takeFront + team.length +
            (spans.length - 1) * (c.takes .takeBack + team.length) ∧
        c.takes .takeFront + c.takes .takeBack ≤ (spans.flatMap Span.toList).length ∧
        turns.length ≤ (2 * spans.length + 6) * (spans.flatMap Span.toList).length +
          team.length * (2 * spans.length + 4) ∧
        ∀ w ∈ team, c.state.phase w = .finished ∨ c.state.isReady w = true) ∧
      ∀ order : Nat → Nat, ∃ steps, job.follow
        (team.map .start ++ ((List.range steps).map order).map .step)
        { state := .initial memory gate spans } = none := by
  have hunbroken := JobState.Unbroken.initial memory gate spans
  have hfit := JobState.fit_initial memory gate spans
  have hsize := JobState.size_workers_initial memory gate spans
  have hlength : ∀ (turns : List Nat) (c : Course), job.follow (team.map .start ++ turns.map .step)
      { state := .initial memory gate spans } = some c →
      turns.length ≤ (2 * spans.length + 6) * (spans.flatMap Span.toList).length +
        team.length * (2 * spans.length + 4) := by
    intro turns c hfollow
    have hle := length_le_of_team (hunbroken.lasting job) hfollow
    rwa [JobState.effort_initial, hsize] at hle
  refine ⟨?_, ?_⟩
  · intro turns c hfollow
    have hbooks := Course.Balanced.initial memory gate spans
    have hbalanced := (Course.Balanced.keeps job _).follow hbooks hfollow
    obtain ⟨hmanned, -⟩ := manned_follow hbooks
      (JobState.manned_initial memory gate spans team) hfollow (by simp) (by simp)
    refine ⟨?_, ?_, hlength turns c hfollow, ?_⟩
    · have hcharged := (Course.Charged.keepsOnce job).run (.initial memory gate spans)
        (JobState.waiting_initial memory gate spans) hopen hfollow
      have hfronts := hcharged.fronts
      have hbacks := hcharged.backs
      have hdrained := c.state.sum_drained_le hmanned.idle
      rw [size_workers_follow hunbroken.unheld hfollow, hsize] at hbacks
      have hsweeps := Nat.mul_le_mul_left (spans.length - 1)
        (Nat.add_le_add_left hdrained (c.takes .takeBack))
      omega
    · have htaken := hbalanced.taken_append_perm.length_eq
      rw [List.length_append] at htaken
      have htakes := c.takes_le
      omega
    · intro w hw
      refine (over_or_ready_of_team (hunbroken.lasting job) hfit
        (Gate.isSome_wait?_of_isOpen hopen) hfollow hw ?_).imp_left ?_
      · rw [hsize]
        exact hteam w hw
      · exact ((Course.Explained.keeps job).follow (.initial job memory gate spans)
          hfollow).finished ((JobState.Unbroken.keeps job).follow hunbroken hfollow) hkernel
  · intro order
    by_contra hendless
    let bound := (2 * spans.length + 6) * (spans.flatMap Span.toList).length +
      team.length * (2 * spans.length + 4)
    obtain ⟨c, hfollow⟩ := Option.ne_none_iff_exists'.mp
      (not_exists.mp hendless (bound + 1))
    have hle := hlength _ c hfollow
    rw [List.length_map, List.length_range] at hle
    exact absurd hle (Nat.not_succ_le_self bound)

/-- The first of two workers does everything before the second one looks: one index from the front,
two from the back, and seven operations, which is the bound. -/
theorem operations_bounded_tightly :
    ∃ c, (Job.reversedSum fun _ => none).follow
        ([0, 1].map .start ++ (List.replicate 15 0 ++ List.replicate 3 1).map .step)
        { state := .initial .reversedSum ⟨2, .abort, .opened⟩ [⟨0, 1⟩, ⟨1, 3⟩] } = some c ∧
      c.operations .takeFront + c.operations .takeBack =
        c.takes .takeFront + 2 + (2 - 1) * (c.takes .takeBack + 2) ∧
      ∀ w ∈ [0, 1], c.state.phase w = .finished := by
  have hrun : ∃ c, (Job.reversedSum fun _ => none).follow
        ([0, 1].map .start ++ (List.replicate 15 0 ++ List.replicate 3 1).map .step)
        { state := .initial .reversedSum ⟨2, .abort, .opened⟩ [⟨0, 1⟩, ⟨1, 3⟩] } = some c ∧
      7 ≤ c.operations .takeFront + c.operations .takeBack ∧
      c.takes .takeFront = 1 ∧ c.takes .takeBack = 2 ∧
      ∀ w ∈ [0, 1], c.state.isReady w = false :=
    ⟨_, rfl, by decide, by decide, by decide, by decide⟩
  obtain ⟨c, hfollow, hmade, hfront, hback, hstill⟩ := hrun
  have hbounded := operations_bounded (Job.reversedSum fun _ => none) .reversedSum
    ⟨2, .abort, .opened⟩ [⟨0, 1⟩, ⟨1, 3⟩] [0, 1] rfl (fun _ => rfl) (by decide)
  obtain ⟨hoperations, -, -, hends⟩ := hbounded.1 _ c hfollow
  refine ⟨c, hfollow, ?_, fun w hw => ?_⟩
  · simp only [List.length_cons, List.length_nil] at hoperations
    omega
  · refine (hends w hw).resolve_right fun hready => ?_
    rw [hstill w hw] at hready
    cases hready

end Job

end Elementwise
