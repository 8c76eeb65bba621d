import Elementwise.Proofs.Range.Partition
import Elementwise.Proofs.Range.Word

/-!
The shape of a split: as many ranges as there are workers with something to do, laid end to end,
of one length up to the last. Computed in 64-bit words they come out the same.
-/

namespace Elementwise

/-- Spans that lie end to end from `start` to `stop`, none of them empty. -/
def Span.Tile : Nat → List Span → Nat → Prop
  | start, [], stop => start = stop
  | start, span :: rest, stop =>
      span.lower = start ∧ span.lower < span.upper ∧ Span.Tile span.upper rest stop

/-- Spans between the values of a function that ascends. -/
theorem Span.tile_ascending (bound : Nat → Nat) (start count : Nat)
    (hascends : ∀ i, start ≤ i → i < start + count → bound i < bound (i + 1)) :
    Span.Tile (bound start)
      ((List.range' start count).map fun i => ⟨bound i, bound (i + 1)⟩)
      (bound (start + count)) := by
  induction count generalizing start with
  | zero => rfl
  | succ count ih =>
      rw [List.range'_succ, List.map_cons]
      refine ⟨rfl, hascends start (Nat.le_refl start) (by omega), ?_⟩
      have hrest := ih (start + 1) fun i hlower hupper => hascends i (by omega) (by omega)
      rwa [Nat.add_right_comm] at hrest

namespace Partition

theorem split?_eq_ok {elements requested : Nat} (h : 0 < requested) :
    split? elements requested = .ok (split elements requested) :=
  if_neg (Nat.ne_of_gt h)

/-- With fewer indices than workers there is a worker for each index. -/
theorem workers_split (elements : Nat) {requested : Nat} (h : 0 < requested) :
    (split elements requested).workers = min elements requested := by
  have hchunk := Nat.div_eq_zero_iff (a := elements) (b := requested)
  simp only [split]
  split <;> simp only <;> omega

/-- What is left behind the last range but one fits into one more range and a remainder. -/
theorem elements_le (elements : Nat) {requested : Nat} (h : 0 < requested) :
    elements ≤ (split elements requested).workers * (split elements requested).chunk +
      (requested - 1) := by
  simp only [split]
  split
  · simp
  · have hdiv := Nat.div_add_mod elements requested
    have hmod := Nat.mod_lt elements h
    simp only
    omega

section

variable {p : Partition}

theorem length_range_of_not_last {worker : Nat} (h : worker + 1 ≠ p.workers) :
    (p.range worker).length = p.chunk := by
  simp only [range, h, if_false, Span.length]
  omega

theorem length_range_of_last {worker : Nat} (h : worker + 1 = p.workers) :
    (p.range worker).length = p.elements - worker * p.chunk := by
  simp only [range, h, if_true, Span.length]

theorem ranges_eq_concat {others : Nat} (h : p.workers = others + 1) :
    p.ranges = (List.range others).map p.range ++ [p.range others] := by
  rw [ranges, h, List.range_succ, List.map_append, List.map_singleton]

theorem ranges_eq_nil (h : p.workers = 0) : p.ranges = [] := by
  rw [ranges, h, List.range_zero, List.map_nil]

theorem length_of_mem_dropLast {span : Span} (h : span ∈ p.ranges.dropLast) :
    span.length = p.chunk := by
  cases hworkers : p.workers with
  | zero => simp [ranges_eq_nil hworkers] at h
  | succ others =>
      rw [ranges_eq_concat hworkers, List.dropLast_concat] at h
      obtain ⟨worker, hworker, rfl⟩ := List.mem_map.mp h
      have hlt := List.mem_range.mp hworker
      exact length_range_of_not_last (by omega)

theorem length_of_mem_getLast? (hfit : p.workers * p.chunk ≤ p.elements) {span : Span}
    (h : span ∈ p.ranges.getLast?) :
    span.length + p.workers * p.chunk = p.elements + p.chunk := by
  cases hworkers : p.workers with
  | zero => simp [ranges_eq_nil hworkers] at h
  | succ others =>
      rw [ranges_eq_concat hworkers, List.getLast?_concat] at h
      obtain rfl := Option.mem_some_iff.mp h
      rw [hworkers, Nat.succ_mul] at hfit
      rw [length_range_of_last hworkers.symm, Nat.succ_mul]
      omega

end

/-- The range of a worker in 64-bit words. For the last range no end is computed. -/
def rangeInWords? (p : Partition) (worker : Nat) : Option Span := do
  let start ← Word.mul? worker p.chunk
  let next ← Word.add? worker 1
  if next = p.workers then some ⟨start, p.elements⟩
  else
    let stop ← Word.add? start p.chunk
    some ⟨start, stop⟩

theorem rangeInWords?_eq {p : Partition} (hword : p.elements < UInt64.size)
    (hchunk : 0 < p.chunk) (hfit : p.workers * p.chunk ≤ p.elements) {worker : Nat}
    (h : worker < p.workers) : p.rangeInWords? worker = some (p.range worker) := by
  have hnext : (worker + 1) * p.chunk ≤ p.elements :=
    Nat.le_trans (Nat.mul_le_mul_right p.chunk h) hfit
  have hsum : worker * p.chunk + p.chunk ≤ p.elements := by rwa [← Nat.succ_mul]
  have hcount : worker + 1 ≤ p.elements :=
    Nat.le_trans (Nat.le_mul_of_pos_right (worker + 1) hchunk) hnext
  have hmul : Word.mul? worker p.chunk = some (worker * p.chunk) := by simp; omega
  have hadd : Word.add? worker 1 = some (worker + 1) := by simp; omega
  have hstop : Word.add? (worker * p.chunk) p.chunk = some (worker * p.chunk + p.chunk) := by
    simp; omega
  simp only [rangeInWords?, range, hmul, hadd, hstop, Option.bind_eq_bind, Option.bind_some]
  split <;> rfl

/-- Every call over a number of indices that is a word is split into ranges that tile it, without
an overflow on the way. -/
theorem split_tiles (elements requested : Nat) (hrequested : 0 < requested)
    (helements : elements < UInt64.size) :
    ∃ p, split? elements requested = .ok p ∧
      p.ranges.length = min elements requested ∧
      Span.Tile 0 p.ranges elements ∧
      p.chunk = max 1 (elements / requested) ∧
      (∀ span ∈ p.ranges.dropLast, span.length = p.chunk) ∧
      (∀ span ∈ p.ranges.getLast?,
        p.chunk ≤ span.length ∧ span.length ≤ p.chunk + requested - 1) ∧
      ∀ worker < p.workers, p.rangeInWords? worker = some (p.range worker) := by
  have hchunk := chunk_pos elements requested
  have hfit := workers_mul_chunk_le elements requested
  have hrest := elements_le elements hrequested
  have hformula := chunk_split elements requested
  have hworkers := workers_split elements hrequested
  have hwhole := elements_split elements requested
  refine ⟨split elements requested, split?_eq_ok hrequested, ?_⟩
  generalize split elements requested = p at *
  subst hwhole
  refine ⟨by rw [length_ranges, hworkers], ?_, hformula, ?_⟩
  · have hzero : p.bound 0 = 0 := bound_zero fun hnone => by omega
    have htile := Span.tile_ascending p.bound 0 p.workers
      fun i _ hi => bound_lt_bound_succ hchunk hfit (by omega)
    rwa [← List.range_eq_range', ← ranges_eq_bounds, Nat.zero_add, bound_workers, hzero] at htile
  · refine ⟨fun span hspan => length_of_mem_dropLast hspan, fun span hspan => ?_,
      fun worker hworker => rangeInWords?_eq helements hchunk hfit hworker⟩
    have hlength := length_of_mem_getLast? hfit hspan
    omega

/-- The largest number of indices there is, split in four. The last range takes three more. -/
theorem split_tiles_of_largest :
    ∃ p, split? (UInt64.size - 1) 4 = .ok p ∧ p.ranges.length = 4 ∧
      Span.Tile 0 p.ranges (UInt64.size - 1) ∧
      (p.range 3).length = p.chunk + 4 - 1 ∧ p.rangeInWords? 3 = some (p.range 3) := by
  obtain ⟨p, hp, hlength, htile, -, -, -, hwords⟩ := split_tiles (UInt64.size - 1) 4 (by decide)
    (by decide)
  obtain rfl := Except.ok.inj ((split?_eq_ok (by decide)).symm.trans hp)
  exact ⟨_, hp, hlength, htile, by decide, hwords 3 (by decide)⟩

end Partition

end Elementwise
