import Elementwise.Proofs.Job.Effort
import Elementwise.Proofs.Range.Partition

/-!
Who took what from where. Every index that a deque handed out is an index of its range, went to the
owner from the front or to another worker from the back, and is counted as such by the worker that
got it once the call is completed.
-/

namespace Elementwise

/-- An index that a worker got from a deque. -/
structure Pick where
  worker : Nat
  deque : Nat
  access : Access
  index : Nat
deriving DecidableEq, Repr

/-- The owner takes from the front of its deque, the others take from the back. -/
structure Pick.Placed (count : Nat) (pick : Pick) : Prop where
  worker : pick.worker < count
  deque : pick.deque < count
  side : pick.access = .takeFront ∧ pick.deque = pick.worker ∨
    pick.access = .takeBack ∧ pick.deque ≠ pick.worker

theorem Pick.Placed.takeFront_iff {count : Nat} {pick : Pick} (h : pick.Placed count) :
    pick.access = .takeFront ↔ pick.deque = pick.worker := by
  rcases h.side with ⟨haccess, hown⟩ | ⟨haccess, hother⟩ <;> simp [*]

theorem Pick.Placed.takeBack_iff {count : Nat} {pick : Pick} (h : pick.Placed count) :
    pick.access = .takeBack ↔ pick.deque ≠ pick.worker := by
  rcases h.side with ⟨haccess, hown⟩ | ⟨haccess, hother⟩ <;> simp [*]

def Deed.pick? : Deed → Option Pick
  | accessed worker deque access (some index) => some ⟨worker, deque, access, index⟩
  | _ => none

/-- The indices that the deques handed out, in order, and to whom. -/
def Course.picks (c : Course) : List Pick := c.deeds.filterMap Deed.pick?

@[simp] theorem Course.picks_note (c : Course) (deed : Option Deed) (s : JobState) :
    (c.note deed s).picks = c.picks ++ (deed.bind Deed.pick?).toList :=
  filterMap_append_toList Deed.pick? c.deeds deed

/-- How an index of this origin was taken. -/
def Origin.access : Origin → Access
  | own => .takeFront
  | peer _ => .takeBack

/-- The completed elements that a worker has taken in one way. -/
def Tally.takenBy (t : Tally) : Access → Nat
  | .takeFront => t.completed - t.stolen
  | .takeBack => t.stolen
  | .inspect => 0

namespace Phase

/-- 1 for a worker with an index in hand that it has taken in the given way. -/
def inHandBy (access : Access) : Phase → Nat
  | holding _ origin | calling _ origin | storing _ origin _ =>
      if origin.access = access then 1 else 0
  | _ => 0

theorem inHandBy_sweepFrom (access : Access) (self count peer : Nat) (found : Bool) :
    (sweepFrom self count peer found).inHandBy access = 0 :=
  sweepFrom_induction (motive := fun phase => phase.inHandBy access = 0) (fun _ _ => rfl) rfl ..

theorem inHandBy_resume (access : Access) (self count : Nat) (origin : Origin) :
    (resume self count origin).inHandBy access = 0 := by
  cases origin with
  | own => rfl
  | peer peer => exact inHandBy_sweepFrom ..

theorem inHandBy_of_access {phase : Phase} {self q : Nat} {access : Access}
    (h : phase.access? self = some (q, access)) (way : Access) : phase.inHandBy way = 0 := by
  cases phase with
  | draining | sweeping => rfl
  | _ => cases h

theorem inHandBy_of_not_running {phase : Phase} (h : phase.isRunning = false) (way : Access) :
    phase.inHandBy way = 0 := by
  cases phase with
  | idle | finished | dead => rfl
  | _ => cases h

theorem inHandBy_receive {phase : Phase} {self q : Nat} {access : Access}
    (h : phase.access? self = some (q, access)) (count : Nat) (found : Option Nat)
    (way : Access) :
    (phase.receive self count found).inHandBy way =
      found.toList.countP fun _ => access = way := by
  cases phase with
  | draining | sweeping =>
      cases h
      cases found with
      | none => exact inHandBy_sweepFrom ..
      | some index => cases way <;> rfl
  | _ => cases h

end Phase

/-- What a worker has taken in one way, completed or still in hand. -/
def Worker.credit (worker : Worker) (access : Access) : Nat :=
  worker.tally.takenBy access + worker.phase.inHandBy access

theorem Worker.credit_of_not_running {worker : Worker} (h : worker.phase.isRunning = false)
    (access : Access) : worker.credit access = worker.tally.takenBy access := by
  rw [credit, Phase.inHandBy_of_not_running h, Nat.add_zero]

theorem Tally.takenBy_add {t : Tally} (h : t.stolen ≤ t.completed) (origin : Origin)
    (access : Access) :
    (t.add origin).takenBy access = t.takenBy access + if origin.access = access then 1 else 0 := by
  cases origin <;> cases access <;> simp [add, addOwn, addStolen, takenBy, Origin.access]
  all_goals omega

theorem Tally.stolen_le_add {t : Tally} (h : t.stolen ≤ t.completed) (origin : Origin) :
    (t.add origin).stolen ≤ (t.add origin).completed := by
  cases origin with
  | own => exact Nat.le_succ_of_le h
  | peer peer => exact Nat.succ_le_succ h

/-- What the credit has to know of a change from `s` to `s'`. Only the entry of one worker changes,
and it is credited with what is handed to it. -/
structure Crediting (s : JobState) (deed : Option Deed) (s' : JobState) (w : Nat)
    (old new : Worker) : Prop where
  before : s.workers[w]? = some old
  workers : s'.workers = s.workers.setIfInBounds w new
  stolen_le : old.tally.stolen ≤ old.tally.completed → new.tally.stolen ≤ new.tally.completed
  credit : deed.bind Deed.unwound? = none → old.tally.stolen ≤ old.tally.completed →
    ∀ access, new.credit access =
      old.credit access + (deed.bind Deed.pick?).toList.countP fun pick => pick.access = access

namespace Job.Move

variable {job : Job} {s s' : JobState} {w : Nat} {deed : Option Deed}

theorem crediting (h : Move job s w deed s') : ∃ old new, Crediting s deed s' w old new := by
  cases h with
  | @enter worker told hworker hphase =>
      refine ⟨worker, _, hworker, rfl, id, fun _ _ access => ?_⟩
      cases told <;> simp [Worker.credit, hphase, Phase.inHandBy]
  | @take worker q access deque found rest hworker haccess =>
      refine ⟨worker, _, hworker, rfl, id, fun _ _ way => ?_⟩
      simp only [Worker.credit, Phase.inHandBy_receive haccess, Phase.inHandBy_of_access haccess]
      cases found <;> rfl
  | @breach worker q access deque hworker haccess =>
      unfold Job.breach
      split
      · exact ⟨worker, worker, hworker, (setIfInBounds_self hworker).symm, id, fun _ _ _ => rfl⟩
      · refine ⟨worker, _, hworker, rfl, id, fun _ _ way => ?_⟩
        simp only [Worker.credit, Phase.inHandBy_of_access haccess]
        rfl
  | @call worker index origin hworker hphase =>
      refine ⟨worker, _, hworker, rfl, id, fun _ _ access => ?_⟩
      simp only [Worker.credit, hphase]
      rfl
  | @unwind worker index origin cause hworker hphase =>
      exact ⟨worker, _, hworker, rfl, id, fun hunwound => by cases hunwound⟩
  | @read worker index origin hworker hphase =>
      refine ⟨worker, _, hworker, rfl, id, fun _ _ access => ?_⟩
      simp only [Worker.credit, hphase]
      rfl
  | @store worker index origin bits hworker hphase =>
      refine ⟨worker, _, hworker, rfl, fun hle => Tally.stolen_le_add hle origin,
        fun _ hle access => ?_⟩
      simp only [Worker.credit, Tally.takenBy_add hle, Phase.inHandBy_resume, hphase]
      rfl

/-- What is handed out in a step is handed to the worker that takes it. -/
theorem pick_of_mem (h : Move job s w deed s') (hfit : s.Fit) {pick : Pick}
    (hpick : pick ∈ (deed.bind Deed.pick?).toList) :
    pick.worker = w ∧ pick.Placed s.workers.size := by
  cases h with
  | @take worker q access deque found rest hworker haccess hdeque =>
      cases found with
      | none => cases hpick
      | some index =>
          obtain rfl := List.mem_singleton.mp hpick
          have hq := (Array.getElem?_eq_some_iff.mp hdeque).1
          rw [hfit.sizes] at hq
          refine ⟨rfl, JobState.lt_size hworker, hq, ?_⟩
          cases hphase : worker.phase with
          | draining =>
              rw [hphase] at haccess
              cases haccess
              exact .inl ⟨rfl, rfl⟩
          | sweeping peer any =>
              rw [hphase] at haccess
              cases haccess
              refine .inr ⟨rfl, (hfit.peers w q ?_).2⟩
              rw [JobState.phase_eq hworker, hphase]
              rfl
          | _ =>
              rw [hphase] at haccess
              cases haccess
  | _ => cases hpick

theorem dealt (h : Move job s w deed s') {q : Nat} {after : Deque}
    (hafter : s'.deques[q]? = some after) :
    ∃ before, s.deques[q]? = some before ∧
      (((deed.bind Deed.pick?).toList.filter fun pick => pick.deque = q).map Pick.index :
        Multiset Nat) + after.bounds.toList = before.bounds.toList := by
  cases h with
  | @take worker p access deque found rest hworker haccess hdeque hlock happly =>
      by_cases hq : p = q
      · subst hq
        obtain rfl : { deque with bounds := rest } = after := by
          have hp := (Array.getElem?_eq_some_iff.mp hdeque).1
          simpa [hp] using hafter
        refine ⟨deque, hdeque, ?_⟩
        rw [← Access.coe_apply happly]
        cases found <;> simp [Deed.pick?]
      · refine ⟨after, ?_, ?_⟩
        · simpa [Array.getElem?_setIfInBounds_ne hq] using hafter
        · cases found <;> simp [Deed.pick?, hq]
  | breach =>
      unfold Job.breach at hafter
      split at hafter <;> exact ⟨after, hafter, zero_add _⟩
  | _ => exact ⟨after, hafter, zero_add _⟩

end Job.Move

namespace Course

/-- The indices of a span that a worker has taken from the front. -/
def kept (c : Course) (w : Nat) (span : Span) : Nat :=
  c.picks.countP fun pick => pick.worker = w ∧ pick.access = .takeFront ∧ pick.index ∈ span.toList

/-- The indices of the span of a worker that others have taken from the back. -/
def stolenFrom (c : Course) (w : Nat) (span : Span) : Nat :=
  c.picks.countP fun pick => pick.worker ≠ w ∧ pick.access = .takeBack ∧ pick.index ∈ span.toList

theorem map_index_picks (c : Course) : c.picks.map Pick.index = c.taken := by
  unfold picks taken
  rw [List.map_filterMap]
  congr 1
  funext deed
  rcases deed with ⟨w, q, access, - | index⟩ | ⟨w, index⟩ | ⟨w, index⟩ <;> rfl

theorem length_picks (c : Course) : c.picks.length = c.taken.length := by
  rw [← c.map_index_picks, List.length_map]

end Course

/-- The account of a course over `spans`, one for each deque. -/
structure Course.Attributed (spans : List Span) (c : Course) : Prop where
  unheld : c.state.Unheld
  fit : c.state.Fit
  size : c.state.workers.size = spans.length
  placed : ∀ pick ∈ c.picks, pick.Placed spans.length
  /-- What a deque handed out and what is left in it was in it at the beginning. -/
  dealt : ∀ q deque span, c.state.deques[q]? = some deque → spans[q]? = some span →
    ((c.picks.filter fun pick => pick.deque = q).map Pick.index : Multiset Nat) +
      deque.bounds.toList = span.toList
  stolen_le : ∀ worker ∈ c.state.workers, worker.tally.stolen ≤ worker.tally.completed
  credit : c.unwound = [] → ∀ (w : Nat) (worker : Worker), c.state.workers[w]? = some worker →
    ∀ access, worker.credit access =
      c.picks.countP fun pick => pick.worker = w ∧ pick.access = access
  credits : c.unwound = [] → ∀ access,
    total (fun worker => worker.credit access) c.state.workers =
      c.picks.countP fun pick => pick.access = access

namespace Course.Attributed

variable {spans : List Span} {c : Course} {job : Job} {w : Nat} {deed : Option Deed}
  {s' : JobState}

theorem initial (memory : Memory) (gate : Gate) (spans : List Span) :
    Attributed spans { state := .initial memory gate spans } where
  unheld := JobState.unheld_initial memory gate spans
  fit := JobState.fit_initial memory gate spans
  size := JobState.size_workers_initial memory gate spans
  placed _ hpick := absurd hpick List.not_mem_nil
  dealt q deque span hdeque hspan := by
    obtain rfl : Deque.ofSpan span = deque := by simpa [JobState.initial, hspan] using hdeque
    exact zero_add _
  stolen_le worker hworker := by
    obtain ⟨w, hw⟩ := Array.mem_iff_getElem?.mp hworker
    rw [JobState.worker_initial hw]
  credit _ w worker hworker access := by
    rw [JobState.worker_initial hworker]
    cases access <;> rfl
  credits _ access := by
    refine total_eq_zero _ fun worker hworker => ?_
    obtain ⟨w, hw⟩ := Array.mem_iff_getElem?.mp hworker
    rw [JobState.worker_initial hw]
    cases access <;> rfl

theorem post (h : c.Attributed spans) (hunheld : s'.Unheld) (hfit : s'.Fit)
    (hplaced : ∀ pick ∈ (c.note deed s').picks, pick.Placed spans.length)
    (hdealt : ∀ q deque span, s'.deques[q]? = some deque → spans[q]? = some span →
      (((c.note deed s').picks.filter fun pick => pick.deque = q).map Pick.index : Multiset Nat) +
        deque.bounds.toList = span.toList)
    (hself : ∀ pick ∈ (deed.bind Deed.pick?).toList, pick.worker = w)
    {old new : Worker} (hcrediting : Crediting c.state deed s' w old new) :
    (c.note deed s').Attributed spans := by
  have hw := JobState.lt_size hcrediting.before
  have hold := h.stolen_le old (Array.mem_of_getElem? hcrediting.before)
  have hunwound (hnone : (c.note deed s').unwound = []) :
      c.unwound = [] ∧ deed.bind Deed.unwound? = none := by
    rw [Course.unwound_note, List.append_eq_nil_iff] at hnone
    exact ⟨hnone.1, Option.toList_eq_nil_iff.mp hnone.2⟩
  refine ⟨hunheld, hfit, ?_, hplaced, hdealt, ?_, ?_, ?_⟩
  · rw [Course.state_note, hcrediting.workers, Array.size_setIfInBounds]
    exact h.size
  · intro worker hworker
    rw [Course.state_note, hcrediting.workers] at hworker
    rcases Array.mem_or_eq_of_mem_setIfInBounds hworker with hmem | rfl
    · exact h.stolen_le worker hmem
    · exact hcrediting.stolen_le hold
  · intro hnone v worker hworker access
    obtain ⟨hbefore, hdeed⟩ := hunwound hnone
    rw [Course.state_note, hcrediting.workers] at hworker
    rw [Course.picks_note, List.countP_append]
    -- all that is handed out goes to the worker whose entry changes
    by_cases hv : v = w
    · subst hv
      obtain rfl : new = worker := by simpa [hw] using hworker
      have hcount : (deed.bind Deed.pick?).toList.countP
            (fun pick => pick.worker = v ∧ pick.access = access) =
          (deed.bind Deed.pick?).toList.countP fun pick => pick.access = access :=
        List.countP_congr fun pick hpick => by simp [hself pick hpick]
      rw [hcount, hcrediting.credit hdeed hold, h.credit hbefore v old hcrediting.before]
    · rw [Array.getElem?_setIfInBounds_ne (Ne.symm hv)] at hworker
      have hcount : (deed.bind Deed.pick?).toList.countP
          (fun pick => pick.worker = v ∧ pick.access = access) = 0 :=
        List.countP_eq_zero.mpr fun pick hpick => by simp [hself pick hpick, Ne.symm hv]
      rw [hcount, Nat.add_zero]
      exact h.credit hbefore v worker hworker access
  · intro hnone access
    obtain ⟨hbefore, hdeed⟩ := hunwound hnone
    have hbook := total_setIfInBounds (fun worker => worker.credit access) hcrediting.before new
    have hcredit := hcrediting.credit hdeed hold access
    have hall := h.credits hbefore access
    rw [Course.state_note, hcrediting.workers, Course.picks_note, List.countP_append]
    omega

theorem move (h : c.Attributed spans) (hmove : Job.Move job c.state w deed s') :
    (c.note deed s').Attributed spans := by
  obtain ⟨old, new, hcrediting⟩ := hmove.crediting
  refine h.post (hmove.unheld h.unheld) (hmove.fit h.fit) ?_ ?_
    (fun pick hpick => (hmove.pick_of_mem h.fit hpick).1) hcrediting
  · intro pick hpick
    rw [Course.picks_note, List.mem_append] at hpick
    rcases hpick with hold | hnew
    · exact h.placed pick hold
    · rw [← h.size]
      exact (hmove.pick_of_mem h.fit hnew).2
  · intro q deque span hdeque hspan
    obtain ⟨before, hbefore, hdealt⟩ := hmove.dealt hdeque
    rw [Course.picks_note, List.filter_append, List.map_append, ← Multiset.coe_add, add_assoc,
      hdealt]
    exact h.dealt q before span hbefore hspan

theorem start (h : c.Attributed spans) (hidle : (c.state.phase w).isRunning = false) :
    Attributed spans { c with state := c.state.start w } := by
  cases hworker : c.state.workers[w]? with
  | none =>
      rw [JobState.start_of_none hworker]
      exact h
  | some worker =>
      have hcrediting : Crediting c.state none (c.state.start w) w worker
          { worker with phase := .atGate } := by
        rw [JobState.phase_eq hworker] at hidle
        refine ⟨hworker, by rw [JobState.start_eq hworker]; rfl, id, fun _ _ access => ?_⟩
        simp only [Worker.credit, Phase.inHandBy_of_not_running hidle]
        rfl
      have hunheld : (c.state.start w).Unheld := by
        unfold JobState.Unheld
        rw [JobState.deques_start]
        exact h.unheld
      have hpost := h.post hunheld (h.fit.start w) (by simpa using h.placed)
        (by simpa [JobState.deques_start] using h.dealt) (by simp) hcrediting
      simpa [Course.note] using hpost

theorem settle (h : c.Attributed spans) (started : Nat) :
    Attributed spans { c with state := c.state.settle started } :=
  ⟨h.unheld, ⟨h.fit.sizes, h.fit.peers⟩, h.size, h.placed, h.dealt, h.stolen_le, h.credit,
    h.credits⟩

theorem keeps (job : Job) (spans : List Span) : job.Keeps (Attributed spans) where
  unheld _ h := h.unheld
  move _ _ _ _ h hmove := h.move hmove
  start _ _ h hidle := h.start hidle
  settle _ started h := h.settle started

theorem mem_span (h : c.Attributed spans) {pick : Pick} (hpick : pick ∈ c.picks) {span : Span}
    (hspan : spans[pick.deque]? = some span) : pick.index ∈ span.toList := by
  have hq : pick.deque < c.state.deques.size := by
    rw [h.fit.sizes, h.size]
    exact (h.placed pick hpick).deque
  have hdealt := h.dealt pick.deque _ span (Array.getElem?_eq_getElem hq) hspan
  rw [← Multiset.mem_coe, ← hdealt]
  refine Multiset.mem_add.mpr (.inl (List.mem_map_of_mem ?_))
  exact List.mem_filter.mpr ⟨hpick, decide_eq_true rfl⟩

theorem deque_eq_iff (h : c.Attributed spans) (hspans : (spans.flatMap Span.toList).Nodup)
    {pick : Pick} (hpick : pick ∈ c.picks) {span : Span} (hspan : spans[w]? = some span) :
    pick.deque = w ↔ pick.index ∈ span.toList := by
  constructor
  · rintro rfl
    exact h.mem_span hpick hspan
  · intro hindex
    have hown := List.getElem?_eq_getElem (h.placed pick hpick).deque
    exact Span.eq_of_mem_toList hspans hown hspan (h.mem_span hpick hown) hindex

theorem countP_takeFront (h : c.Attributed spans) (hspans : (spans.flatMap Span.toList).Nodup)
    {span : Span} (hspan : spans[w]? = some span) :
    c.picks.countP (fun pick => pick.worker = w ∧ pick.access = .takeFront) = c.kept w span := by
  refine List.countP_congr fun pick hpick => ?_
  simp only [decide_eq_true_eq, ← h.deque_eq_iff hspans hpick hspan,
    (h.placed pick hpick).takeFront_iff]
  omega

/-- What has left the deque of a worker was kept by the worker or stolen by others. -/
theorem kept_add_stolenFrom (h : c.Attributed spans) (hspans : (spans.flatMap Span.toList).Nodup)
    {span : Span} (hspan : spans[w]? = some span) :
    c.kept w span + c.stolenFrom w span = c.picks.countP fun pick => pick.deque = w := by
  rw [List.countP_eq_countP_filter_add c.picks (fun pick => pick.deque = w)
    (fun pick => pick.worker = w), List.countP_filter, List.countP_filter]
  congr 1
  · refine List.countP_congr fun pick hpick => ?_
    simp only [decide_eq_true_eq, Bool.and_eq_true, ← h.deque_eq_iff hspans hpick hspan,
      (h.placed pick hpick).takeFront_iff]
    omega
  · refine List.countP_congr fun pick hpick => ?_
    simp only [decide_eq_true_eq, Bool.and_eq_true, Bool.not_eq_true', decide_eq_false_iff_not,
      ← h.deque_eq_iff hspans hpick hspan, (h.placed pick hpick).takeBack_iff]
    omega

theorem countP_deque (h : c.Attributed spans) {deque : Deque}
    (hdeque : c.state.deques[w]? = some deque) (hempty : deque.bounds.toList = []) {span : Span}
    (hspan : spans[w]? = some span) :
    (c.picks.countP fun pick => pick.deque = w) = span.length := by
  have hdealt := congrArg Multiset.card (h.dealt w deque span hdeque hspan)
  rw [hempty, Multiset.coe_nil, add_zero, Multiset.coe_card, Multiset.coe_card, List.length_map,
    Span.length_toList] at hdealt
  rw [List.countP_eq_length_filter]
  exact hdealt

theorem countP_takeBack_le (h : c.Attributed spans) (w : Nat) :
    c.picks.countP (fun pick => pick.worker = w ∧ pick.access = .takeBack) +
      c.picks.countP (fun pick => pick.deque = w) ≤ c.picks.length := by
  -- what a worker takes from the back is from the deques of others
  rw [List.length_eq_countP_add_countP (fun pick : Pick => pick.deque = w), Nat.add_comm]
  refine Nat.add_le_add_left (List.countP_mono_left fun pick hpick hstolen => ?_) _
  simp only [decide_eq_true_eq, (h.placed pick hpick).takeBack_iff] at hstolen ⊢
  omega

end Course.Attributed

end Elementwise
