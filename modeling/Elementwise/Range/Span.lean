/-!
Half-open ranges of indices, and taking one index off either end.
-/

namespace Elementwise

/-- The indices from `lower` up to but not including `upper`. -/
structure Span where
  lower : Nat
  upper : Nat
deriving DecidableEq, Repr, Inhabited

namespace Span

def length (s : Span) : Nat := s.upper - s.lower

def toList (s : Span) : List Nat := List.range' s.lower s.length

/-- Takes the first index. An empty span stays as it is. -/
def takeFront (s : Span) : Option Nat × Span :=
  if s.lower < s.upper then (some s.lower, { s with lower := s.lower + 1 }) else (none, s)

def takeBack (s : Span) : Option Nat × Span :=
  if s.lower < s.upper then (some (s.upper - 1), { s with upper := s.upper - 1 }) else (none, s)

@[simp] theorem mem_toList {s : Span} {i : Nat} : i ∈ s.toList ↔ s.lower ≤ i ∧ i < s.upper := by
  simp only [toList, length, List.mem_range'_1]
  omega

@[simp] theorem length_toList (s : Span) : s.toList.length = s.length := by simp [toList]

theorem toList_eq_nil {s : Span} (h : s.upper ≤ s.lower) : s.toList = [] := by
  rw [toList, length, Nat.sub_eq_zero_of_le h]
  rfl

theorem toList_takeFront (s : Span) :
    s.takeFront.1.toList ++ s.takeFront.2.toList = s.toList := by
  unfold takeFront
  split
  · rename_i h
    obtain ⟨n, hn⟩ : ∃ n, s.upper - s.lower = n + 1 := ⟨s.upper - s.lower - 1, by omega⟩
    have hrest : s.upper - (s.lower + 1) = n := by omega
    simp [toList, length, hn, hrest, List.range'_succ]
  · simp

theorem toList_takeBack (s : Span) :
    s.takeBack.2.toList ++ s.takeBack.1.toList = s.toList := by
  unfold takeBack
  split
  · rename_i h
    obtain ⟨n, hn⟩ : ∃ n, s.upper - s.lower = n + 1 := ⟨s.upper - s.lower - 1, by omega⟩
    have hrest : s.upper - 1 - s.lower = n := by omega
    have hlast : s.upper - 1 = s.lower + n := by omega
    simp only [toList, length, hn, hrest, List.range'_concat, Option.toList_some]
    simp [hlast]
  · simp

end Span

end Elementwise
