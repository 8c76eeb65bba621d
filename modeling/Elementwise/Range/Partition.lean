import Elementwise.Failure
import Elementwise.Range.Span

/-!
Splitting the indices of a call into one range per worker. All ranges have the same length, except
that the last one also takes the remainder. With fewer indices than workers each worker gets one
index and the surplus workers get no range.
-/

namespace Elementwise

/-- The split of `elements` indices into `workers` ranges of `chunk` indices each. -/
structure Partition where
  elements : Nat
  chunk : Nat
  workers : Nat
deriving DecidableEq, Repr, Inhabited

namespace Partition

def split (elements requested : Nat) : Partition :=
  let chunk := elements / requested
  if chunk = 0 then ⟨elements, 1, elements⟩ else ⟨elements, chunk, requested⟩

/-- Splits for a number of workers that may turn out to be zero. -/
def split? (elements requested : Nat) : Except Misuse Partition :=
  if requested = 0 then .error .zeroPlan else .ok (split elements requested)

/-- The range of one worker. The last range ends at the last index. -/
def range (p : Partition) (worker : Nat) : Span :=
  let start := worker * p.chunk
  ⟨start, if worker + 1 = p.workers then p.elements else start + p.chunk⟩

def ranges (p : Partition) : List Span := (List.range p.workers).map p.range

@[simp] theorem length_ranges (p : Partition) : p.ranges.length = p.workers := by simp [ranges]

end Partition

end Elementwise
