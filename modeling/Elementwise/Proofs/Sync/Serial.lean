import Elementwise.Proofs.Sync.Sharing

/-!
Operations on a shared deque are atomic. Whatever the order of small steps, one thread at most is
inside, no lock call finds a breach, and what the operations give is what they would give if each
were made as a whole at the moment when it acquires the lock.
-/

namespace Elementwise

/-- How far the operation inside has brought the bounds from what they were when it acquired the
lock. -/
def Deque.Stage.Between (access : Access) (before current : Span) : Stage → Prop
  | reading => current = before
  | writing seen => seen = before ∧ current = before
  | leaving taken => access.apply before = (taken, current)
  | _ => False

theorem Deque.Stage.Between.isInside {access : Access} {before current : Span} {stage : Stage}
    (h : stage.Between access before current) : stage.isInside = true := by
  cases stage with
  | reading | writing | leaving => rfl
  | _ => exact False.elim h

namespace Sharing

/-- Nobody but the thread in question is further than the entrance. -/
def Outside (s : Sharing) (t : Nat) : Prop :=
  ∀ visit, s.visits t = some visit → visit.stage = .entering

/-- The results so far are those of whole operations in the order of the acquired locks, and the
bounds are those behind them, up to the operation of the one thread that may be inside. -/
inductive Serial (span : Span) (s : Sharing) : Prop where
  | free (hlock : s.deque.lock = ⟨Lock.free⟩)
      (hacquired : s.acquired = s.receipts.map Receipt.entry)
      (hserial : Access.applyAll (s.receipts.map Receipt.access) span =
        (s.receipts.map Receipt.taken, s.deque.bounds))
      (houtside : ∀ t, s.Outside t)
  | held (t : Nat) (visit : Visit) (before : Span) (hlock : s.deque.lock = ⟨Lock.held⟩)
      (hvisit : s.visits t = some visit)
      (hacquired : s.acquired = s.receipts.map Receipt.entry ++ [(t, visit.access)])
      (hserial : Access.applyAll (s.receipts.map Receipt.access) span =
        (s.receipts.map Receipt.taken, before))
      (hstage : visit.stage.Between visit.access before s.deque.bounds)
      (houtside : ∀ u, u ≠ t → s.Outside u)

theorem outside_update {s s' : Sharing} {t : Nat} {visit : Option Visit}
    (hvisits : s'.visits = Function.update s.visits t visit)
    (hentering : ∀ v, visit = some v → v.stage = .entering) {u : Nat}
    (h : u ≠ t → s.Outside u) : s'.Outside u := by
  intro v hv
  rw [hvisits] at hv
  by_cases hu : u = t
  · subst hu
    rw [Function.update_self] at hv
    exact hentering v hv
  · rw [Function.update_of_ne hu] at hv
    exact h hu v hv

theorem outside_of_ne {s s' : Sharing} {t u : Nat} {visit : Option Visit}
    (hvisits : s'.visits = Function.update s.visits t visit) (hu : u ≠ t) (h : s.Outside u) :
    s'.Outside u := by
  intro v hv
  rw [hvisits, Function.update_of_ne hu] at hv
  exact h v hv

namespace Serial

variable {span : Span} {s s' : Sharing}

theorem ofSpan (span : Span) : Serial span { deque := .ofSpan span } := by
  refine .free rfl rfl rfl ?_
  intro t visit hvisit
  cases hvisit

theorem call (h : s.Serial span) {t : Nat} {access : Access}
    (hcall : s.occur (.call t access) = some s') : s'.Serial span := by
  simp only [occur] at hcall
  split at hcall
  · cases hcall
  · rename_i hnone
    cases hcall
    have hentering : ∀ v, some (⟨access, .entering⟩ : Visit) = some v → v.stage = .entering := by
      rintro v hv
      cases hv
      rfl
    cases h with
    | free hlock hacquired hserial houtside =>
        exact .free hlock hacquired hserial fun u => outside_update rfl hentering fun _ => houtside u
    | held holder visit before hlock hvisit hacquired hserial hstage houtside =>
        have hne : holder ≠ t := by
          rintro rfl
          rw [hnone] at hvisit
          cases hvisit
        refine .held holder visit before hlock ?_ hacquired hserial hstage ?_
        · exact (Function.update_of_ne hne ..).trans hvisit
        · exact fun u hu => outside_update rfl hentering fun _ => houtside u hu

/-- A thread at the entrance finds the lock free, and fails for no reason or gets in. -/
theorem enter_free {t : Nat} {visit : Visit} (hvisit : s.visits t = some visit)
    (hlock : s.deque.lock = ⟨Lock.free⟩) (hacquired : s.acquired = s.receipts.map Receipt.entry)
    (hserial : Access.applyAll (s.receipts.map Receipt.access) span =
      (s.receipts.map Receipt.taken, s.deque.bounds))
    (houtside : ∀ u, s.Outside u) {spurious : Bool}
    (hstep : s.occur (.step t spurious) = some s') : s'.Serial span := by
  have hstage := houtside t visit hvisit
  have hdeque : s.deque = ⟨⟨Lock.free⟩, s.deque.bounds⟩ := by rw [← hlock]
  simp only [occur, hvisit, Option.map_some, hstage] at hstep
  rw [hdeque, Deque.step_entering_free] at hstep
  cases spurious with
  | true =>
      cases hstep
      refine .free rfl ?_ hserial fun u => outside_update rfl ?_ fun _ => houtside u
      · simp [move, hstage, Deque.Stage.isInside, hacquired]
      · rintro v hv
        cases hv
        rfl
  | false =>
      cases hstep
      refine .held t ⟨visit.access, .reading⟩ s.deque.bounds rfl ?_ ?_ hserial rfl ?_
      · exact Function.update_self ..
      · simp [move, hstage, Deque.Stage.isInside, hacquired]
      · exact fun u hu => outside_of_ne rfl hu (houtside u)

/-- The thread inside takes its next step: it reads, writes, or releases the lock and is out. -/
theorem step_inside {t : Nat} {visit : Visit} {before : Span} (hvisit : s.visits t = some visit)
    (hlock : s.deque.lock = ⟨Lock.held⟩)
    (hacquired : s.acquired = s.receipts.map Receipt.entry ++ [(t, visit.access)])
    (hserial : Access.applyAll (s.receipts.map Receipt.access) span =
      (s.receipts.map Receipt.taken, before))
    (hstage : visit.stage.Between visit.access before s.deque.bounds)
    (houtside : ∀ u, u ≠ t → s.Outside u) {spurious : Bool}
    (hstep : s.occur (.step t spurious) = some s') : s'.Serial span := by
  obtain ⟨access, stage⟩ := visit
  simp only [occur, hvisit, Option.map_some] at hstep
  cases stage with
  | reading =>
      cases hstep
      obtain rfl : s.deque.bounds = before := hstage
      refine .held t ⟨access, .writing s.deque.bounds⟩ _ hlock ?_ ?_ hserial ⟨rfl, rfl⟩ ?_
      · exact Function.update_self ..
      · exact hacquired
      · exact fun u hu => outside_of_ne rfl hu (houtside u hu)
  | writing seen =>
      cases hstep
      obtain ⟨rfl, hbounds⟩ := hstage
      refine .held t ⟨access, .leaving (access.apply seen).1⟩ seen hlock ?_ ?_ hserial rfl ?_
      · exact Function.update_self ..
      · exact hacquired
      · exact fun u hu => outside_of_ne rfl hu (houtside u hu)
  | leaving taken =>
      have hdeque : s.deque = ⟨⟨Lock.held⟩, s.deque.bounds⟩ := by rw [← hlock]
      rw [hdeque, Deque.step_leaving_held] at hstep
      cases hstep
      -- the lock is released only now, but the bounds have long been written
      have happly : access.apply before = (taken, s.deque.bounds) := hstage
      refine .free rfl ?_ ?_ ?_
      · simp [move, hacquired, Receipt.entry]
      · simp only [move, List.map_append, List.map_singleton]
        rw [Access.applyAll_append_singleton, hserial, happly]
      · intro u
        refine outside_update rfl ?_ (houtside u)
        intro v hv
        cases hv
  | _ => exact False.elim hstage

theorem enter_held {holder : Nat} {visit : Visit} {before : Span}
    (hlock : s.deque.lock = ⟨Lock.held⟩) (hvisit : s.visits holder = some visit)
    (hacquired : s.acquired = s.receipts.map Receipt.entry ++ [(holder, visit.access)])
    (hserial : Access.applyAll (s.receipts.map Receipt.access) span =
      (s.receipts.map Receipt.taken, before))
    (hstage : visit.stage.Between visit.access before s.deque.bounds)
    (houtside : ∀ u, u ≠ holder → s.Outside u) {t : Nat} (ht : t ≠ holder) {spurious : Bool}
    (hstep : s.occur (.step t spurious) = some s') : s'.Serial span := by
  obtain ⟨waiting, hwaiting, rfl⟩ := Option.map_eq_some_iff.mp hstep
  have hentering := houtside t ht waiting hwaiting
  have hdeque : s.deque = ⟨⟨Lock.held⟩, s.deque.bounds⟩ := by rw [← hlock]
  rw [hentering, hdeque, Deque.step_entering_held]
  refine .held holder visit before rfl ?_ ?_ hserial hstage ?_
  · exact (Function.update_of_ne (Ne.symm ht) ..).trans hvisit
  · simp [move, hentering, Deque.Stage.isInside, hacquired]
  · intro u hu
    refine outside_update rfl ?_ fun _ => houtside u hu
    rintro v hv
    cases hv
    rfl

theorem occur (h : s.Serial span) {event : Event} (hoccur : s.occur event = some s') :
    s'.Serial span := by
  cases event with
  | call t access => exact h.call hoccur
  | step t spurious =>
      obtain ⟨visit, hvisit, -⟩ := Option.map_eq_some_iff.mp hoccur
      cases h with
      | free hlock hacquired hserial houtside =>
          exact enter_free hvisit hlock hacquired hserial houtside hoccur
      | held holder inside before hlock hinside hacquired hserial hstage houtside =>
          by_cases ht : t = holder
          · subst ht
            exact step_inside hinside hlock hacquired hserial hstage houtside hoccur
          · exact enter_held hlock hinside hacquired hserial hstage houtside ht hoccur

theorem follow (h : s.Serial span) {events : List Event} (hfollow : s.follow events = some s') :
    s'.Serial span := by
  induction events generalizing s with
  | nil =>
      cases hfollow
      exact h
  | cons event rest ih =>
      obtain ⟨middle, hoccur, hrest⟩ := Option.bind_eq_some_iff.mp hfollow
      exact ih (h.occur hoccur) hrest

theorem eq_of_inside (h : s.Serial span) {t u : Nat} (ht : s.Inside t) (hu : s.Inside u) :
    t = u := by
  have hnot {v : Nat} (houtside : s.Outside v) : ¬ s.Inside v := by
    rintro ⟨visit, hvisit, hinside⟩
    rw [houtside visit hvisit] at hinside
    cases hinside
  cases h with
  | free hlock hacquired hserial houtside => exact absurd ht (hnot (houtside t))
  | held holder visit before hlock hvisit hacquired hserial hstage houtside =>
      have hholder {v : Nat} (hv : s.Inside v) : v = holder := by
        by_contra hne
        exact hnot (houtside v hne) hv
      rw [hholder ht, hholder hu]

theorem entering_or_inside (h : s.Serial span) {t : Nat} {visit : Visit}
    (hvisit : s.visits t = some visit) :
    visit.stage = .entering ∨ visit.stage.isInside = true := by
  cases h with
  | free hlock hacquired hserial houtside => exact .inl (houtside t visit hvisit)
  | held holder inside before hlock hinside hacquired hserial hstage houtside =>
      by_cases ht : t = holder
      · subst ht
        obtain rfl : inside = visit := Option.some.inj (hinside.symm.trans hvisit)
        exact .inr hstage.isInside
      · exact .inl (houtside t ht visit hvisit)

theorem entries_eq_take (h : s.Serial span) :
    s.receipts.map Receipt.entry = s.acquired.take s.receipts.length := by
  cases h with
  | free hlock hacquired =>
      rw [hacquired]
      exact (List.take_of_length_le (by simp)).symm
  | held t visit before hlock hvisit hacquired =>
      rw [hacquired]
      exact (List.take_left' (by simp)).symm

theorem taken_eq (h : s.Serial span) :
    s.receipts.map Receipt.taken = (Access.applyAll (s.receipts.map Receipt.access) span).1 := by
  cases h with
  | free hlock hacquired hserial => rw [hserial]
  | held t visit before hlock hvisit hacquired hserial => rw [hserial]

end Serial

/-- Threads make operations on a deque in small steps, in any order. One of them at most is inside,
no call poisons the lock or raises, the operations that came back are the first ones that acquired
the lock, in this order, their results are those of whole operations in this order, and a free lock
leaves proper bounds, those behind all these operations. -/
theorem operations_atomic_by_acquisition (span : Span) (events : List Event) (s : Sharing)
    (hspan : span.lower ≤ span.upper)
    (hfollow : follow events { deque := .ofSpan span } = some s) :
    (∀ t u, s.Inside t → s.Inside u → t = u) ∧
      (∀ t visit observed, s.visits t = some visit →
        visit.stage ≠ .poisoning observed ∧ visit.stage ≠ .raised observed) ∧
      s.receipts.map Receipt.entry = s.acquired.take s.receipts.length ∧
      s.receipts.map Receipt.taken =
        (Access.applyAll ((s.acquired.take s.receipts.length).map Prod.snd) span).1 ∧
      (s.deque.lock = ⟨Lock.free⟩ →
        s.receipts.length = s.acquired.length ∧
        s.deque.bounds = (Access.applyAll (s.acquired.map Prod.snd) span).2 ∧
        s.deque.bounds.lower ≤ s.deque.bounds.upper) := by
  have h := (Serial.ofSpan span).follow hfollow
  have haccess : s.receipts.map Receipt.access =
      (s.acquired.take s.receipts.length).map Prod.snd := by
    rw [← h.entries_eq_take, List.map_map]
    rfl
  refine ⟨fun t u => h.eq_of_inside, ?_, h.entries_eq_take, haccess ▸ h.taken_eq, ?_⟩
  · intro t visit observed hvisit
    rcases h.entering_or_inside hvisit with hentering | hinside
    · rw [hentering]
      exact ⟨Deque.Stage.noConfusion, Deque.Stage.noConfusion⟩
    · constructor <;> intro hstage <;> rw [hstage] at hinside <;> cases hinside
  · intro hfree
    cases h with
    | free hlock hacquired hserial houtside =>
        have hall : s.acquired.map Prod.snd = s.receipts.map Receipt.access := by
          rw [hacquired, List.map_map]
          rfl
        have hbounds : s.deque.bounds = (Access.applyAll (s.acquired.map Prod.snd) span).2 := by
          rw [hall, hserial]
        refine ⟨by simp [hacquired], hbounds, ?_⟩
        rw [hbounds]
        exact Access.lower_le_upper_applyAll hspan _
    | held t visit before hlock =>
        rw [hlock] at hfree
        cases hfree

/-- Two takes and a look overlap. The second thread is the first one in, after an exchange that
failed for no reason. -/
theorem operations_atomic_by_acquisition_of_three :
    ∃ s, follow
        [.call 0 .takeFront, .call 1 .takeBack, .step 1 true, .step 1 false, .step 0 false,
          .step 1 false, .call 2 .inspect, .step 1 false, .step 2 false, .step 1 false,
          .step 0 false, .step 0 false, .step 2 false, .step 0 false, .step 0 false,
          .step 2 false, .step 2 false, .step 2 false, .step 2 false]
        { deque := .ofSpan ⟨0, 3⟩ } = some s ∧
      s.acquired = [(1, .takeBack), (0, .takeFront), (2, .inspect)] ∧
      s.receipts.map Receipt.taken =
        [.index (some 2), .index (some 0), .bounds ⟨1, 2⟩] := by
  have hrun : ∃ s, follow
        [.call 0 .takeFront, .call 1 .takeBack, .step 1 true, .step 1 false, .step 0 false,
          .step 1 false, .call 2 .inspect, .step 1 false, .step 2 false, .step 1 false,
          .step 0 false, .step 0 false, .step 2 false, .step 0 false, .step 0 false,
          .step 2 false, .step 2 false, .step 2 false, .step 2 false]
        { deque := .ofSpan ⟨0, 3⟩ } = some s ∧
      s.acquired = [(1, .takeBack), (0, .takeFront), (2, .inspect)] ∧ s.receipts.length = 3 :=
    ⟨_, rfl, rfl, rfl⟩
  obtain ⟨s, hfollow, hacquired, hcount⟩ := hrun
  have hatomic := operations_atomic_by_acquisition ⟨0, 3⟩ _ s (by decide) hfollow
  refine ⟨s, hfollow, hacquired, ?_⟩
  rw [hatomic.2.2.2.1, hcount, hacquired]
  rfl

end Sharing

end Elementwise
