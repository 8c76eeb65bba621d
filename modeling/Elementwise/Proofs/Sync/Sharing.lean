import Elementwise.Sync.Deque
import Mathlib.Data.List.Basic
import Mathlib.Logic.Function.Basic

/-!
Threads that share a deque. Any number of them begin operations at any time and take their small
steps in any order; an exchange that acquires the lock may fail for no reason. Beside the deque it
is kept who acquired the lock and what came back, each in order.
-/

namespace Elementwise

/-- An operation under way. -/
structure Visit where
  access : Access
  stage : Deque.Stage
deriving DecidableEq, Repr

/-- An operation that has come back with a result. -/
structure Receipt where
  thread : Nat
  access : Access
  taken : Taken
deriving DecidableEq, Repr

namespace Receipt

def entry (r : Receipt) : Nat × Access := (r.thread, r.access)

end Receipt

/-- A deque with its threads. A thread has one operation under way at most. -/
structure Sharing where
  deque : Deque
  visits : Nat → Option Visit := fun _ => none
  /-- The operations that acquired the lock, in the order in which they did. -/
  acquired : List (Nat × Access) := []
  /-- The operations that came back, in the order in which they did. -/
  receipts : List Receipt := []

namespace Sharing

inductive Event where
  | call (thread : Nat) (access : Access)
  | step (thread : Nat) (spurious : Bool)
deriving DecidableEq, Repr

/-- Moves the operation of a thread to a stage. -/
def move (s : Sharing) (t : Nat) (visit : Visit) (stage : Deque.Stage) (deque : Deque) : Sharing :=
  match stage with
  | .returned taken =>
      { s with
        deque
        visits := Function.update s.visits t none
        receipts := s.receipts ++ [⟨t, visit.access, taken⟩] }
  | stage =>
      { s with
        deque
        visits := Function.update s.visits t (some { visit with stage })
        acquired :=
          if !visit.stage.isInside && stage.isInside then s.acquired ++ [(t, visit.access)]
          else s.acquired }

def occur (s : Sharing) : Event → Option Sharing
  | .call t access =>
      match s.visits t with
      | some _ => none
      | none => some { s with visits := Function.update s.visits t (some ⟨access, .entering⟩) }
  | .step t spurious =>
      (s.visits t).map fun visit =>
        let (stage, deque) := s.deque.step spurious visit.access visit.stage
        s.move t visit stage deque

def follow : List Event → Sharing → Option Sharing
  | [], s => some s
  | event :: rest, s => (s.occur event).bind (follow rest)

/-- The thread is between acquiring the lock and releasing it. -/
def Inside (s : Sharing) (t : Nat) : Prop :=
  ∃ visit, s.visits t = some visit ∧ visit.stage.isInside = true

end Sharing

namespace Access

/-- Makes one operation after another on a range, each as a whole. -/
def applyAll : List Access → Span → List Taken × Span
  | [], span => ([], span)
  | access :: rest, span =>
      let (taken, span) := access.apply span
      let (all, span) := applyAll rest span
      (taken :: all, span)

theorem applyAll_append_singleton (accesses : List Access) (access : Access) (span : Span) :
    applyAll (accesses ++ [access]) span =
      ((applyAll accesses span).1 ++ [(access.apply (applyAll accesses span).2).1],
        (access.apply (applyAll accesses span).2).2) := by
  induction accesses generalizing span with
  | nil => rfl
  | cons first rest ih =>
      simp only [List.cons_append, applyAll]
      rw [ih]

theorem lower_le_upper_apply {span : Span} (h : span.lower ≤ span.upper) (access : Access) :
    (access.apply span).2.lower ≤ (access.apply span).2.upper := by
  cases access with
  | takeFront =>
      simp only [apply, Span.takeFront]
      split
      · assumption
      · exact h
  | takeBack =>
      simp only [apply, Span.takeBack]
      split
      · change span.lower ≤ span.upper - 1
        omega
      · exact h
  | inspect => exact h

theorem lower_le_upper_applyAll {span : Span} (h : span.lower ≤ span.upper)
    (accesses : List Access) :
    (applyAll accesses span).2.lower ≤ (applyAll accesses span).2.upper := by
  induction accesses generalizing span with
  | nil => exact h
  | cons access rest ih => exact ih (lower_le_upper_apply h access)

end Access

namespace Deque

variable (access : Access) (bounds : Span)

theorem step_entering_free (spurious : Bool) :
    step spurious access .entering ⟨⟨Lock.free⟩, bounds⟩ =
      if spurious then (.entering, ⟨⟨Lock.free⟩, bounds⟩)
      else (.reading, ⟨⟨Lock.held⟩, bounds⟩) := by
  cases spurious <;> rfl

theorem step_entering_held (spurious : Bool) :
    step spurious access .entering ⟨⟨Lock.held⟩, bounds⟩ = (.entering, ⟨⟨Lock.held⟩, bounds⟩) :=
  rfl

theorem step_leaving_held (spurious : Bool) (taken : Taken) :
    step spurious access (.leaving taken) ⟨⟨Lock.held⟩, bounds⟩ =
      (.returned taken, ⟨⟨Lock.free⟩, bounds⟩) :=
  rfl

end Deque

end Elementwise
