import Elementwise.Job.Basic
import Elementwise.Kernel.Formula

/-!
Runs of a job in which anything may come next: a worker begins a run, the gate is settled, or a
worker takes a step. What the deques hand out and how kernel calls end is noted along the way.
-/

namespace Elementwise

/-- What may happen next to a job. -/
inductive Event where
  | start (worker : Nat)
  | settle (started : Nat)
  | step (worker : Nat)
deriving DecidableEq, Repr

/-- What is noted of a step: the answer of a deque, or the end of a kernel call. -/
inductive Deed where
  | accessed (worker deque : Nat) (access : Access) (found : Option Nat)
  | completed (worker index : Nat)
  | unwound (worker index : Nat)
deriving DecidableEq, Repr

namespace Deed

/-- The index that a deque handed out. -/
def taken? : Deed → Option Nat
  | accessed _ _ _ found => found
  | _ => none

/-- The index whose call was completed and counted. -/
def completed? : Deed → Option Nat
  | completed _ index => some index
  | _ => none

/-- The index whose call unwound. -/
def unwound? : Deed → Option Nat
  | unwound _ index => some index
  | _ => none

end Deed

/-- A job under way, and what was noted of it so far. -/
structure Course where
  state : JobState
  deeds : List Deed := []

namespace Course

/-- The indices that the deques handed out, in order. -/
def taken (c : Course) : List Nat := c.deeds.filterMap Deed.taken?

/-- The indices whose calls were completed, in order. -/
def completed (c : Course) : List Nat := c.deeds.filterMap Deed.completed?

/-- The indices whose calls unwound, in order. -/
def unwound (c : Course) : List Nat := c.deeds.filterMap Deed.unwound?

/-- Goes on to a state and notes what was done on the way. -/
def note (c : Course) (deed : Option Deed) (s : JobState) : Course := ⟨s, c.deeds ++ deed.toList⟩

theorem filterMap_append_toList {α : Type} (kind : Deed → Option α) (deeds : List Deed)
    (deed : Option Deed) :
    (deeds ++ deed.toList).filterMap kind = deeds.filterMap kind ++ (deed.bind kind).toList := by
  rw [List.filterMap_append]
  cases deed with
  | none => rfl
  | some deed => cases h : kind deed <;> simp [h]

@[simp] theorem state_note (c : Course) (deed : Option Deed) (s : JobState) :
    (c.note deed s).state = s := rfl

@[simp] theorem taken_note (c : Course) (deed : Option Deed) (s : JobState) :
    (c.note deed s).taken = c.taken ++ (deed.bind Deed.taken?).toList :=
  filterMap_append_toList Deed.taken? c.deeds deed

@[simp] theorem completed_note (c : Course) (deed : Option Deed) (s : JobState) :
    (c.note deed s).completed = c.completed ++ (deed.bind Deed.completed?).toList :=
  filterMap_append_toList Deed.completed? c.deeds deed

@[simp] theorem unwound_note (c : Course) (deed : Option Deed) (s : JobState) :
    (c.note deed s).unwound = c.unwound ++ (deed.bind Deed.unwound?).toList :=
  filterMap_append_toList Deed.unwound? c.deeds deed

end Course

namespace JobState

/-- The indices that nobody has taken, deque after deque. -/
def untakenIndices (s : JobState) : List Nat :=
  s.deques.toList.flatMap fun deque => deque.bounds.toList

/-- The indices of the kernel calls in the order in which they began. -/
def called (s : JobState) : List Nat := s.calls.toList.map Call.index

end JobState

namespace Job

/-- What is noted of an operation on a deque, if it returns an answer. -/
def accessDeed? (s : JobState) (w q : Nat) (access : Access) : Option Deed :=
  s.deques[q]?.bind fun deque =>
    match (deque.perform access).1 with
    | .returned (.index found) => some (.accessed w q access found)
    | _ => none

/-- What is noted of the next step of a worker. -/
def deed? (job : Job) (s : JobState) (w : Nat) : Option Deed :=
  match s.phase w with
  | .draining => accessDeed? s w w .takeFront
  | .sweeping peer _ => accessDeed? s w peer .takeBack
  | .calling index _ => if (job.unwinding index).isSome then some (.unwound w index) else none
  | .storing index _ _ => some (.completed w index)
  | _ => none

/-- Lets something happen. A worker that is running does not begin another run. -/
def occur (job : Job) (c : Course) : Event → Option Course
  | .start w =>
      if (c.state.phase w).isRunning then none else some { c with state := c.state.start w }
  | .settle started => some { c with state := c.state.settle started }
  | .step w => (job.step c.state w).map (c.note (job.deed? c.state w))

/-- Lets one thing happen after another, if each of them can. -/
def follow (job : Job) : List Event → Course → Option Course
  | [], c => some c
  | event :: rest, c => (job.occur c event).bind (job.follow rest)

end Job

/-- A sum of two rows of bytes. The first row is read backwards from address 2; the results begin at
address 4. -/
def Binding.reversedSum : Binding where
  kernel := .ofFormula .add .int8
  inputs := [⟨2, -1⟩, ⟨3, 0⟩]
  output := ⟨4, 1⟩
  arity_pos := by decide
  length_inputs := rfl

/-- A memory with three bytes to read backwards, one that is added to each, and room for results. -/
def Memory.reversedSum : Memory := ⟨⟨#[1, 2, 3, 10, 0, 0, 0, 0]⟩⟩

/-- The job of this sum, under a kernel that may unwind. -/
def Job.reversedSum (unwinding : Nat → Option Payload) : Job := ⟨.reversedSum, unwinding, .abort⟩

end Elementwise
