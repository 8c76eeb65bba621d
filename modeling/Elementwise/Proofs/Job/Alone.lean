import Elementwise.Proofs.Job.Solo
import Elementwise.Proofs.Job.Sweep
import Elementwise.Proofs.Range.Rounds

/-!
The order in which a worker that runs alone goes through what is left. It takes its own indices from
the front, and then in rounds those of the others from the back. What it has yet to do follows from
its phase and the deques, and no step changes what all of it comes to.
-/

namespace Elementwise

/-- The indices in the order in which a worker alone takes them: those at `self`, and then the
others in rounds. -/
def Span.clearing (self : Nat) (spans : List Span) : List Nat :=
  spans[self]?.elim [] toList ++ rounds (spans.eraseIdx self)

def JobState.spans (s : JobState) : List Span := s.deques.toList.map Deque.bounds

/-- An index that a worker has yet to complete, and whether it is out of the deque of another. -/
structure Errand where
  index : Nat
  stolen : Bool

namespace Errand

def ofOrigin (index : Nat) (origin : Origin) : Errand := ⟨index, origin.peer?.isSome⟩

def stealing (indices : List Nat) : List Errand := indices.map fun index => ⟨index, true⟩

/-- All that is to be done by a worker alone that goes through its own deque next. -/
def all (self : Nat) (spans : List Span) : List Errand :=
  ((spans[self]?.elim [] Span.toList).map fun index => ⟨index, false⟩) ++
    stealing (Span.rounds (spans.eraseIdx self))

/-- What is to be done behind an index that a worker has in hand. -/
def later (self : Nat) (spans : List Span) : Origin → List Errand
  | .own => all self spans
  | .peer peer => stealing (Span.roundsFrom self (peer + 1) spans)

/-- Taking an index out of the worker's own deque. -/
theorem all_eq {self : Nat} {spans : List Span} {span : Span} (hspan : spans[self]? = some span) :
    all self spans = (span.takeFront.1.toList.map fun index => ⟨index, false⟩) ++
      all self (spans.set self span.takeFront.2) := by
  have hrest : (spans.set self span.takeFront.2)[self]? = some span.takeFront.2 :=
    List.getElem?_set_self (List.getElem?_eq_some_iff.mp hspan).1
  rw [all, all, List.eraseIdx_set_eq, hrest, hspan, ← List.append_assoc, ← List.map_append]
  exact congrArg (fun own => List.map _ own ++ _) span.toList_takeFront.symm

theorem all_of_empty {self : Nat} {spans : List Span} {span : Span}
    (hspan : spans[self]? = some span) (hempty : span.upper ≤ span.lower) :
    all self spans = stealing (Span.rounds (spans.eraseIdx self)) := by
  rw [all, hspan, Option.elim_some, Span.toList_eq_nil hempty, List.map_nil, List.nil_append]

theorem index_all (self : Nat) (spans : List Span) :
    (all self spans).map index = Span.clearing self spans := by
  simp [all, stealing, Span.clearing, Function.comp_def]

theorem length_all {self : Nat} {spans : List Span} (h : self < spans.length) :
    (all self spans).length = (spans.flatMap Span.toList).length := by
  have hothers := (Span.rounds_perm (spans.eraseIdx self)).length_eq
  have hall := ((List.getElem_cons_eraseIdx_perm h).flatMap_right Span.toList).length_eq
  rw [List.flatMap_cons, List.length_append, ← hothers] at hall
  rw [← hall, all, List.getElem?_eq_getElem h]
  simp [stealing]

theorem countP_all (self : Nat) (spans : List Span) :
    (all self spans).countP stolen = ((spans.eraseIdx self).flatMap Span.toList).length := by
  have hothers := (Span.rounds_perm (spans.eraseIdx self)).length_eq
  rw [← hothers, all, stealing, List.countP_append, List.countP_map, List.countP_map]
  simp [Function.comp_def]

end Errand

namespace Phase

/-- What a worker alone has yet to complete, in order. -/
def agenda (self : Nat) (spans : List Span) : Phase → List Errand
  | atGate | draining => Errand.all self spans
  | sweeping peer _ => Errand.stealing (Span.roundsFrom self peer spans)
  | holding index origin | calling index origin | storing index origin _ =>
      Errand.ofOrigin index origin :: Errand.later self spans origin
  | idle | finished | dead .. => []

/-- The part of the agenda for which the kernel has yet to be called. -/
def uncalled (self : Nat) (spans : List Span) : Phase → List Errand
  | calling _ origin | storing _ origin _ => Errand.later self spans origin
  | phase => phase.agenda self spans

/-- Nothing has come between a worker and what it has read, and it has not died. -/
def Undisturbed (job : Job) (memory : Memory) : Phase → Prop
  | storing index _ bits => bits = job.binding.evaluate memory index
  | idle | dead .. => False
  | _ => True

theorem agenda_sweepFrom {self peer : Nat} {found : Bool} {spans : List Span}
    (hself : self < spans.length)
    (hend : sweepFrom self spans.length peer found = .finished →
      ∀ s ∈ spans, s.upper ≤ s.lower) :
    (sweepFrom self spans.length peer found).agenda self spans =
      Errand.stealing (Span.roundsFrom self peer spans) := by
  have hnext : Span.roundsFrom self (if peer = self then peer + 1 else peer) spans =
      Span.roundsFrom self peer spans := by
    split
    · rename_i heq
      rw [heq, Span.roundsFrom_succ_self]
    · rfl
  simp only [sweepFrom] at hend ⊢
  rw [← hnext]
  generalize (if peer = self then peer + 1 else peer) = next at hend ⊢
  split
  · rfl
  · rename_i hlast
    rw [Span.roundsFrom_end hself (Nat.le_of_not_lt hlast)]
    split
    · -- the next sweep is over the same spans
      have hfirst : Span.roundsFrom self (if self = 0 then 1 else 0) spans =
          Span.roundsFrom self 0 spans := by
        split
        · rename_i hzero
          rw [hzero]
          exact Span.roundsFrom_succ_self 0 spans
        · rfl
      rw [agenda, hfirst, Span.roundsFrom_zero]
    · rename_i hfound
      rw [if_neg hlast, if_neg hfound] at hend
      rw [Span.rounds_eq_nil fun s hs => hend rfl s (List.mem_of_mem_eraseIdx hs)]
      rfl

theorem agenda_receive {phase : Phase} {self q : Nat} {access : Access} {span rest : Span}
    {found : Option Nat} {spans : List Span} (hself : self < spans.length)
    (haccess : phase.access? self = some (q, access))
    (hpeer : ∀ peer, phase.peer? = some peer → peer ≠ self) (hspan : spans[q]? = some span)
    (happly : access.apply span = (.index found, rest))
    (hend : phase.receive self spans.length found = .finished →
      ∀ s ∈ spans.set q rest, s.upper ≤ s.lower) :
    (phase.receive self spans.length found).agenda self (spans.set q rest) =
      phase.agenda self spans := by
  have hlength : (spans.set q rest).length = spans.length := List.length_set
  rw [← hlength] at hself hend ⊢
  cases phase with
  | draining =>
      cases haccess
      have hall : Errand.all self spans =
          (found.toList.map fun index => ⟨index, false⟩) ++
            Errand.all self (spans.set self rest) := by
        cases happly
        exact Errand.all_eq hspan
      rw [agenda, hall]
      cases found with
      | none =>
          obtain ⟨hnone, hsame⟩ := Access.apply_index happly
          have hrest : (spans.set self rest)[self]? = some rest :=
            List.getElem?_set_self (hlength ▸ hself)
          have hempty : rest.upper ≤ rest.lower := by
            rw [hsame rfl]
            exact hnone.mp rfl
          rw [receive, agenda_sweepFrom hself hend, Span.roundsFrom_zero,
            Errand.all_of_empty hrest hempty]
          rfl
      | some index => rfl
  | sweeping peer seen =>
      cases haccess
      have hround : Span.roundsFrom self q spans =
          found.toList ++ Span.roundsFrom self (q + 1) (spans.set q rest) := by
        cases happly
        exact Span.roundsFrom_eq (hpeer q rfl) hspan
      rw [agenda, hround]
      cases found with
      | none => exact agenda_sweepFrom hself hend
      | some index => rfl
  | _ => cases haccess

theorem sweepFrom_ne_finished (self count peer : Nat) :
    sweepFrom self count peer true ≠ .finished := by
  simp only [sweepFrom, if_true]
  generalize (if peer = self then peer + 1 else peer) = next
  split <;> exact Phase.noConfusion

theorem agenda_resume {self : Nat} {spans : List Span} (hself : self < spans.length)
    (origin : Origin) :
    (resume self spans.length origin).agenda self spans = Errand.later self spans origin := by
  cases origin with
  | own => rfl
  | peer peer =>
      exact agenda_sweepFrom hself fun hend =>
        absurd hend (sweepFrom_ne_finished self spans.length (peer + 1))

theorem uncalled_eq_agenda {phase : Phase} (h : phase.inCall = 0) (self : Nat)
    (spans : List Span) : phase.uncalled self spans = phase.agenda self spans := by
  cases phase with
  | calling | storing => exact absurd h (Multiset.singleton_ne_zero _)
  | _ => rfl

theorem undisturbed_of_not_ending {phase : Phase} (hending : phase.isEnding = false)
    (hbegun : phase ≠ .idle) (job : Job) (memory : Memory) : phase.Undisturbed job memory := by
  cases phase with
  | idle => exact absurd rfl hbegun
  | storing | dead => cases hending
  | _ => trivial

end Phase

/-- The kernel calls of a job, its memory and the counters of a worker. -/
structure Prospect where
  calls : List Call
  memory : Memory
  tally : Tally

/-- What it comes to if a worker in this phase does what is left, and nobody else does anything. -/
def Phase.prospect (job : Job) (self : Nat) (spans : List Span) (calls : Array Call)
    (memory : Memory) (tally : Tally) (phase : Phase) : Prospect where
  calls := calls.toList ++ (phase.uncalled self spans).map fun errand => ⟨self, errand.index⟩
  memory := job.binding.invokeAll memory ((phase.agenda self spans).map Errand.index)
  tally :=
    { completed := tally.completed + (phase.agenda self spans).length
      stolen := tally.stolen + (phase.agenda self spans).countP Errand.stolen }

namespace JobState

def prospect (job : Job) (w : Nat) (s : JobState) : Prospect :=
  (s.phase w).prospect job w s.spans s.calls s.memory (s.tally w)

theorem length_spans (s : JobState) : s.spans.length = s.deques.size := by simp [spans]

theorem getElem?_spans {s : JobState} {q : Nat} {deque : Deque} (h : s.deques[q]? = some deque) :
    s.spans[q]? = some deque.bounds := by
  simp [spans, h]

theorem spans_setIfInBounds (s : JobState) (q : Nat) (deque : Deque) :
    { s with deques := s.deques.setIfInBounds q deque }.spans = s.spans.set q deque.bounds := by
  simp [spans, List.map_set]

theorem le_of_emptyAt {s : JobState} (h : ∀ q, s.EmptyAt q) {span : Span} (hspan : span ∈ s.spans) :
    span.upper ≤ span.lower := by
  obtain ⟨deque, hdeque, rfl⟩ := List.mem_map.mp hspan
  obtain ⟨q, hq⟩ := Array.mem_iff_getElem?.mp (Array.mem_toList_iff.mp hdeque)
  exact h q deque hq

theorem prospect_eq {s : JobState} {w : Nat} {worker : Worker} (h : s.workers[w]? = some worker)
    (job : Job) : s.prospect job w =
      worker.phase.prospect job w s.spans s.calls s.memory worker.tally := by
  rw [prospect, phase_eq h, tally_eq h]

theorem prospect_setPhase {s : JobState} {w : Nat} (h : w < s.workers.size) (job : Job)
    (worker : Worker) (phase : Phase) : (s.setPhase w worker phase).prospect job w =
      phase.prospect job w s.spans s.calls s.memory worker.tally :=
  prospect_eq (workers_setPhase_self h worker phase) job

/-- A worker behind an open gate, on its way in a job in which nobody else does anything. -/
structure Alone (job : Job) (w : Nat) (s : JobState) : Prop where
  unbroken : s.Unbroken
  fit : s.Fit
  opened : s.gate.isOpen = true
  swept : (s.phase w).Swept s w
  undisturbed : (s.phase w).Undisturbed job s.memory

end JobState

namespace Phase

variable {job : Job} {self : Nat} {spans : List Span} {calls : Array Call} {memory : Memory}
  {tally : Tally}

theorem prospect_receive {phase : Phase} {q : Nat} {access : Access} {span rest : Span}
    {found : Option Nat} (hself : self < spans.length)
    (haccess : phase.access? self = some (q, access))
    (hpeer : ∀ peer, phase.peer? = some peer → peer ≠ self) (hspan : spans[q]? = some span)
    (happly : access.apply span = (.index found, rest))
    (hend : phase.receive self spans.length found = .finished →
      ∀ s ∈ spans.set q rest, s.upper ≤ s.lower) :
    (phase.receive self spans.length found).prospect job self (spans.set q rest) calls memory
        tally =
      phase.prospect job self spans calls memory tally := by
  obtain ⟨hbefore, hafter⟩ := inCall_receive haccess spans.length found
  rw [prospect, prospect, uncalled_eq_agenda hbefore, uncalled_eq_agenda hafter,
    agenda_receive hself haccess hpeer hspan happly hend]

theorem prospect_calling (index : Nat) (origin : Origin) :
    (calling index origin).prospect job self spans (calls.push ⟨self, index⟩) memory tally =
      (holding index origin).prospect job self spans calls memory tally := by
  simp [prospect, uncalled, agenda, Errand.ofOrigin]

/-- The result of a call is stored and the index is counted. -/
theorem prospect_resume (hself : self < spans.length) (index : Nat) (origin : Origin) :
    (resume self spans.length origin).prospect job self spans calls
        (job.binding.invoke memory index) (tally.add origin) =
      (storing index origin (job.binding.evaluate memory index)).prospect job self spans calls
        memory tally := by
  have htally : tally.add origin =
      { completed := tally.completed + 1
        stolen := tally.stolen + if (Errand.ofOrigin index origin).stolen then 1 else 0 } := by
    cases origin <;> rfl
  rw [prospect, uncalled_eq_agenda (inCall_resume ..), agenda_resume hself, htally]
  simp only [prospect, uncalled, agenda, List.length_cons, List.countP_cons, Nat.add_assoc,
    Nat.add_comm 1, Nat.add_comm (if _ then _ else _)]
  rfl

end Phase

namespace Job.Move

variable {job : Job} {s s' : JobState} {w : Nat} {deed : Option Deed}

theorem undisturbed (h : Move job s w deed s') (hunbroken : s.Unbroken)
    (hopen : s.gate.isOpen = true) (hkernel : ∀ index, job.unwinding index = none) :
    (s'.phase w).Undisturbed job s'.memory := by
  have hbegun := h.phase_ne_idle
  cases h with
  | @enter worker told hworker hphase htold =>
      rw [JobState.phase_setPhase_self (by exact JobState.lt_size hworker),
        Gate.eq_true_of_isOpen hopen htold]
      trivial
  | take hworker haccess =>
      rw [JobState.phase_setPhase_self (by exact JobState.lt_size hworker)] at hbegun ⊢
      exact Phase.undisturbed_of_not_ending (Phase.isEnding_receive haccess ..).2 hbegun ..
  | breach hworker haccess hdeque hlock =>
      exact absurd hlock (hunbroken.not_poisoned (Array.mem_of_getElem? hdeque))
  | call hworker =>
      rw [JobState.phase_setPhase_self (by exact JobState.lt_size hworker)]
      trivial
  | unwind hworker hphase hcause =>
      rw [hkernel] at hcause
      cases hcause
  | read hworker =>
      rw [JobState.phase_setPhase_self (by exact JobState.lt_size hworker)]
      exact rfl
  | store hworker =>
      rw [JobState.phase_setPhase_self (by exact JobState.lt_size hworker)] at hbegun ⊢
      exact Phase.undisturbed_of_not_ending (Phase.isEnding_resume ..) hbegun ..

theorem alone (h : Move job s w deed s') (halone : s.Alone job w)
    (hkernel : ∀ index, job.unwinding index = none) : s'.Alone job w where
  unbroken := halone.unbroken.move h
  fit := h.fit halone.fit
  opened := by
    rw [h.gate_eq]
    exact halone.opened
  swept := h.swept_phase halone.opened halone.fit.sizes halone.swept
  undisturbed := h.undisturbed halone.unbroken halone.opened hkernel

/-- A step of a worker that runs alone is part of what it comes to. -/
theorem prospect_eq (h : Move job s w deed s') (halone : s.Alone job w)
    (hkernel : ∀ index, job.unwinding index = none) : s'.prospect job w = s.prospect job w := by
  have hswept := (h.alone halone hkernel).swept
  have hlength : s.spans.length = s.workers.size := s.length_spans.trans halone.fit.sizes
  cases h with
  | @enter worker told hworker hphase htold =>
      rw [JobState.prospect_setPhase (by exact JobState.lt_size hworker),
        JobState.prospect_eq hworker, hphase, Gate.eq_true_of_isOpen halone.opened htold]
      rfl
  | @take worker q access deque found rest hworker haccess hdeque hlock happly =>
      rw [JobState.phase_setPhase_self (by exact JobState.lt_size hworker), ← hlength] at hswept
      rw [JobState.prospect_setPhase (by exact JobState.lt_size hworker),
        JobState.prospect_eq hworker, JobState.spans_setIfInBounds, ← hlength]
      refine Phase.prospect_receive (hlength ▸ JobState.lt_size hworker) haccess ?_
        (JobState.getElem?_spans hdeque) happly ?_
      · intro peer hpeer
        exact (halone.fit.peers w peer (JobState.phase_eq hworker ▸ hpeer)).2
      · intro hend span hspan
        rw [hend] at hswept
        rw [← s.spans_setIfInBounds q { deque with bounds := rest }] at hspan
        exact JobState.le_of_emptyAt hswept hspan
  | breach hworker haccess hdeque hlock =>
      exact absurd hlock (halone.unbroken.not_poisoned (Array.mem_of_getElem? hdeque))
  | call hworker hphase =>
      rw [JobState.prospect_setPhase (by exact JobState.lt_size hworker),
        JobState.prospect_eq hworker, hphase]
      exact Phase.prospect_calling ..
  | unwind hworker hphase hcause =>
      rw [hkernel] at hcause
      cases hcause
  | read hworker hphase =>
      rw [JobState.prospect_setPhase (by exact JobState.lt_size hworker),
        JobState.prospect_eq hworker, hphase]
      rfl
  | store hworker hphase =>
      have hread := halone.undisturbed
      rw [JobState.phase_eq hworker, hphase] at hread
      rw [JobState.prospect_setPhase (by exact JobState.lt_size hworker),
        JobState.prospect_eq hworker, hphase, hread, ← hlength]
      exact Phase.prospect_resume (hlength ▸ JobState.lt_size hworker) ..

end Job.Move

theorem Job.alone_steps {job : Job} {c c' : Course} {w steps : Nat} (halone : c.state.Alone job w)
    (hkernel : ∀ index, job.unwinding index = none)
    (hfollow : job.follow (List.replicate steps (.step w)) c = some c') :
    c'.state.Alone job w ∧ c'.state.prospect job w = c.state.prospect job w := by
  induction steps generalizing c with
  | zero =>
      cases hfollow
      exact ⟨halone, rfl⟩
  | succ steps ih =>
      rw [List.replicate_succ] at hfollow
      obtain ⟨middle, hoccur, hrest⟩ := Option.bind_eq_some_iff.mp hfollow
      obtain ⟨s', hstep, rfl⟩ := Option.map_eq_some_iff.mp hoccur
      have hmove := move_of_step halone.unbroken.unheld hstep
      obtain ⟨hlast, hprospect⟩ := ih (hmove.alone halone hkernel) hrest
      exact ⟨hlast, hprospect.trans (hmove.prospect_eq halone hkernel)⟩

end Elementwise
