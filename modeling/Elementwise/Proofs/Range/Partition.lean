import Elementwise.Range.Partition
import Mathlib.Data.List.Nodup

/-!
The ranges of a split, laid end to end, are the indices of the call in order.
-/

namespace Elementwise

theorem Span.toList_append_toList {a b c : Nat} (hab : a ≤ b) (hbc : b ≤ c) :
    (Span.mk a b).toList ++ (Span.mk b c).toList = (Span.mk a c).toList := by
  have hlength : c - a = (b - a) + (c - b) := by omega
  have hmiddle : a + (b - a) = b := by omega
  simp only [Span.toList, Span.length]
  rw [hlength, ← List.range'_append_1, hmiddle]

theorem Span.disjoint_toList {a b : Span} (h : a.upper ≤ b.lower) :
    List.Disjoint a.toList b.toList := by
  intro i ha hb
  rw [mem_toList] at ha hb
  omega

theorem Span.nodup_flatMap_toList {spans : List Span}
    (h : spans.Pairwise fun a b => List.Disjoint a.toList b.toList) :
    (spans.flatMap Span.toList).Nodup :=
  List.nodup_flatMap.mpr ⟨fun span _ => List.nodup_range', h⟩

/-- An index lies in one of the spans at most. -/
theorem Span.eq_of_mem_toList {spans : List Span} (h : (spans.flatMap Span.toList).Nodup)
    {a b : Nat} {span other : Span} (ha : spans[a]? = some span) (hb : spans[b]? = some other)
    {index : Nat} (hspan : index ∈ span.toList) (hother : index ∈ other.toList) : a = b := by
  have hpairwise := List.pairwise_iff_getElem.mp (List.nodup_flatMap.mp h).2
  obtain ⟨hfirst, rfl⟩ := List.getElem?_eq_some_iff.mp ha
  obtain ⟨hsecond, rfl⟩ := List.getElem?_eq_some_iff.mp hb
  rcases Nat.lt_trichotomy a b with hlt | heq | hlt
  · exact absurd hother (hpairwise a b hfirst hsecond hlt hspan)
  · exact heq
  · exact absurd hspan (hpairwise b a hsecond hfirst hlt hother)

/-- Spans that begin where the span before them ends make up one span. -/
theorem Span.flatMap_toList_chain (bound : Nat → Nat) (count : Nat)
    (hmono : ∀ i < count, bound i ≤ bound (i + 1)) :
    bound 0 ≤ bound count ∧
      (List.range count).flatMap (fun i => (Span.mk (bound i) (bound (i + 1))).toList) =
        (Span.mk (bound 0) (bound count)).toList := by
  induction count with
  | zero => simp [Span.toList, Span.length]
  | succ count ih =>
      obtain ⟨hle, hflat⟩ := ih fun i hi => hmono i (by omega)
      have hlast := hmono count (by omega)
      refine ⟨Nat.le_trans hle hlast, ?_⟩
      rw [List.range_succ, List.flatMap_append, hflat, List.flatMap_singleton,
        Span.toList_append_toList hle hlast]

namespace Partition

/-- Where a range begins, and where the last one ends. -/
def bound (p : Partition) (worker : Nat) : Nat :=
  if worker = p.workers then p.elements else worker * p.chunk

@[simp] theorem elements_split (elements requested : Nat) :
    (split elements requested).elements = elements := by
  simp only [split]
  split <;> rfl

theorem chunk_split (elements requested : Nat) :
    (split elements requested).chunk = max 1 (elements / requested) := by
  simp only [split]
  split
  · rename_i hnone
    rw [hnone]
    rfl
  · rename_i hsome
    exact (Nat.max_eq_right (Nat.one_le_iff_ne_zero.mpr hsome)).symm

theorem chunk_pos (elements requested : Nat) : 0 < (split elements requested).chunk := by
  rw [chunk_split]
  exact Nat.lt_of_lt_of_le Nat.one_pos (Nat.le_max_left 1 _)

theorem workers_mul_chunk_le (elements requested : Nat) :
    (split elements requested).workers * (split elements requested).chunk ≤ elements := by
  simp only [split]
  split
  · simp
  · exact Nat.mul_div_le elements requested

theorem workers_split_zero (requested : Nat) : (split 0 requested).workers = 0 := by
  simp only [split, Nat.zero_div, if_true]

theorem workers_pos {elements requested : Nat} (h : 0 < elements) :
    0 < (split elements requested).workers := by
  simp only [split]
  split
  · exact h
  · rename_i hchunk
    refine Nat.pos_of_ne_zero fun hzero => hchunk ?_
    change requested = 0 at hzero
    rw [hzero, Nat.div_zero]

theorem bound_of_lt {p : Partition} {worker : Nat} (h : worker < p.workers) :
    p.bound worker = worker * p.chunk :=
  if_neg (Nat.ne_of_lt h)

@[simp] theorem bound_workers (p : Partition) : p.bound p.workers = p.elements := if_pos rfl

theorem bound_zero {p : Partition} (h : p.workers = 0 → p.elements = 0) : p.bound 0 = 0 := by
  unfold bound
  split
  · rename_i hnone
    exact h hnone.symm
  · exact Nat.zero_mul p.chunk

theorem range_eq_bounds {p : Partition} {worker : Nat} (h : worker < p.workers) :
    p.range worker = ⟨p.bound worker, p.bound (worker + 1)⟩ := by
  have hne : worker ≠ p.workers := by omega
  simp only [range, bound, hne, if_false, Nat.succ_mul]

theorem bound_lt_bound_succ {p : Partition} (hchunk : 0 < p.chunk)
    (hfit : p.workers * p.chunk ≤ p.elements) {worker : Nat} (h : worker < p.workers) :
    p.bound worker < p.bound (worker + 1) := by
  have hstep : worker * p.chunk < (worker + 1) * p.chunk :=
    Nat.mul_lt_mul_of_pos_right (Nat.lt_succ_self worker) hchunk
  rw [bound_of_lt h]
  by_cases hlast : worker + 1 = p.workers
  · rw [hlast, bound_workers]
    rw [hlast] at hstep
    exact Nat.lt_of_lt_of_le hstep hfit
  · rwa [bound_of_lt (by omega)]

theorem ranges_eq_bounds (p : Partition) :
    p.ranges = (List.range p.workers).map fun i => ⟨p.bound i, p.bound (i + 1)⟩ :=
  List.map_congr_left fun _ hworker => range_eq_bounds (List.mem_range.mp hworker)

theorem getElem?_ranges {p : Partition} {worker : Nat} (h : worker < p.workers) :
    p.ranges[worker]? = some (p.range worker) := by
  simp [ranges, h]

/-- The ranges of a split hold every index of the call once, in ascending order. -/
theorem flatMap_toList_ranges (elements requested : Nat) :
    (split elements requested).ranges.flatMap Span.toList = List.range elements := by
  let p := split elements requested
  have hwhole : p.elements = elements := elements_split elements requested
  have hchunk : 0 < p.chunk := chunk_pos elements requested
  have hfit : p.workers * p.chunk ≤ p.elements := by
    rw [hwhole]
    exact workers_mul_chunk_le elements requested
  have hfirst : p.bound 0 = 0 := bound_zero fun hnone => by
    by_contra hsome
    rw [hwhole] at hsome
    exact Nat.ne_of_gt (workers_pos (Nat.pos_of_ne_zero hsome)) hnone
  calc
    p.ranges.flatMap Span.toList =
        (List.range p.workers).flatMap
          (fun i => (Span.mk (p.bound i) (p.bound (i + 1))).toList) := by
      rw [ranges_eq_bounds, List.flatMap_map]
    _ = (Span.mk (p.bound 0) (p.bound p.workers)).toList :=
      (Span.flatMap_toList_chain p.bound p.workers
        fun _ hworker => Nat.le_of_lt (bound_lt_bound_succ hchunk hfit hworker)).2
    _ = List.range elements := by
      rw [hfirst, bound_workers, hwhole]
      simp [Span.toList, Span.length, List.range_eq_range']

end Partition

end Elementwise
