import Elementwise.Range.Span
import Mathlib.Data.List.Flatten
import Mathlib.Data.List.Perm.Basic

/-!
Going round spans and taking one index off the back of each, round after round until all of them are
empty. A round that is under way leaves two rows of spans: those it has visited, and those it has
not.
-/

namespace Elementwise

namespace Span

/-- The index that is behind `t` others when counted from the back. -/
def fromBack? (s : Span) (t : Nat) : Option Nat :=
  if t < s.length then some (s.upper - 1 - t) else none

def longest (spans : List Span) : Nat := spans.foldr (fun s longest => max s.length longest) 0

/-- In round `t` each span with more than `t` indices gives the index behind `t` others. -/
def rounds (spans : List Span) : List Nat :=
  (List.range (longest spans)).flatMap fun t => spans.filterMap fun s => s.fromBack? t

/-- What is left of the rounds, counted from one that has come past the visited spans. -/
def roundsOn (visited left : List Span) : List Nat :=
  left.filterMap (fun s => s.takeBack.1) ++ rounds (visited ++ left.map fun s => s.takeBack.2)

theorem takeBack_of_lt {s : Span} (h : s.lower < s.upper) :
    s.takeBack = (some (s.upper - 1), { s with upper := s.upper - 1 }) :=
  if_pos h

theorem takeBack_of_le {s : Span} (h : s.upper ≤ s.lower) : s.takeBack = (none, s) :=
  if_neg (Nat.not_lt_of_le h)

theorem fromBack?_zero (s : Span) : s.fromBack? 0 = s.takeBack.1 := by
  rcases Nat.lt_or_ge s.lower s.upper with h | h
  · rw [takeBack_of_lt h]
    exact if_pos (Nat.sub_pos_of_lt h)
  · rw [takeBack_of_le h]
    exact if_neg (Nat.not_lt_of_le (Nat.le_of_eq (Nat.sub_eq_zero_of_le h)))

theorem fromBack?_succ (s : Span) (t : Nat) : s.fromBack? (t + 1) = s.takeBack.2.fromBack? t := by
  rcases Nat.lt_or_ge s.lower s.upper with h | h
  · have hlength : t + 1 < s.length ↔ t < s.upper - 1 - s.lower := by
      simp only [length]
      omega
    have hindex : s.upper - 1 - (t + 1) = s.upper - 1 - 1 - t := by omega
    rw [takeBack_of_lt h]
    simp only [fromBack?, hlength, hindex]
    rfl
  · have hlength : s.length = 0 := Nat.sub_eq_zero_of_le h
    rw [takeBack_of_le h, fromBack?, fromBack?, hlength]
    rfl

theorem length_takeBack (s : Span) : s.takeBack.2.length = s.length - 1 := by
  rcases Nat.lt_or_ge s.lower s.upper with h | h
  · rw [takeBack_of_lt h]
    simp only [length]
    omega
  · rw [takeBack_of_le h, length, Nat.sub_eq_zero_of_le h]

theorem longest_takeBack (spans : List Span) :
    longest (spans.map fun s => s.takeBack.2) = longest spans - 1 := by
  induction spans with
  | nil => rfl
  | cons s spans ih =>
      simp only [longest, List.map_cons, List.foldr_cons, length_takeBack] at ih ⊢
      omega

theorem length_le_longest {s : Span} {spans : List Span} (h : s ∈ spans) :
    s.length ≤ longest spans := by
  induction spans with
  | nil => cases h
  | cons other spans ih =>
      simp only [longest, List.foldr_cons] at ih ⊢
      rcases List.mem_cons.mp h with rfl | h
      · exact Nat.le_max_left _ _
      · exact Nat.le_trans (ih h) (Nat.le_max_right _ _)

theorem rounds_eq (spans : List Span) :
    rounds spans =
      spans.filterMap (fun s => s.takeBack.1) ++ rounds (spans.map fun s => s.takeBack.2) := by
  have hlater (t : Nat) : spans.filterMap (fun s => s.fromBack? (t + 1)) =
      (spans.map fun s => s.takeBack.2).filterMap fun s => s.fromBack? t := by
    rw [List.filterMap_map]
    exact congrArg (List.filterMap · spans) (funext fun s => fromBack?_succ s t)
  rw [rounds, rounds, longest_takeBack]
  cases hlongest : longest spans with
  | zero =>
      have hnone : spans.filterMap (fun s => s.takeBack.1) = [] := by
        refine List.filterMap_eq_nil_iff.mpr fun s hs => ?_
        have hlength := length_le_longest hs
        rw [← fromBack?_zero, fromBack?, if_neg (by omega)]
      rw [hnone]
      rfl
  | succ n =>
      rw [List.range_succ_eq_map, List.flatMap_cons, List.flatMap_map]
      simp only [fromBack?_zero, Nat.succ_eq_add_one, hlater, Nat.add_sub_cancel]

theorem roundsOn_nil (spans : List Span) : roundsOn [] spans = rounds spans :=
  (rounds_eq spans).symm

theorem roundsOn_end (spans : List Span) : roundsOn spans [] = rounds spans := by
  simp [roundsOn]

/-- Visiting the next span of a round. -/
theorem roundsOn_cons (visited : List Span) (s : Span) (left : List Span) :
    roundsOn visited (s :: left) =
      s.takeBack.1.toList ++ roundsOn (visited ++ [s.takeBack.2]) left := by
  simp only [roundsOn, List.map_cons, List.filterMap_cons, List.append_assoc, List.cons_append,
    List.nil_append]
  cases s.takeBack.1 <;> rfl

theorem rounds_eq_nil {spans : List Span} (h : ∀ s ∈ spans, s.upper ≤ s.lower) :
    rounds spans = [] := by
  refine List.flatMap_eq_nil_iff.mpr fun t _ => List.filterMap_eq_nil_iff.mpr fun s hs => ?_
  have hempty := h s hs
  rw [fromBack?, if_neg (by simp only [length]; omega)]

/-- The rounds come past every index once. -/
theorem rounds_perm (spans : List Span) : (rounds spans).Perm (spans.flatMap toList) := by
  generalize hn : longest spans = n
  induction n generalizing spans with
  | zero =>
      have hempty : spans.flatMap toList = [] := by
        refine List.flatMap_eq_nil_iff.mpr fun s hs => toList_eq_nil ?_
        have hlength := length_le_longest hs
        simp only [length] at hlength
        omega
      rw [hempty, rounds, hn]
      exact .nil
  | succ n ih =>
      have hrest := ih (spans.map fun s => s.takeBack.2) (by rw [longest_takeBack, hn]; rfl)
      calc
        (rounds spans).Perm (spans.filterMap (fun s => s.takeBack.1) ++
            (spans.map fun s => s.takeBack.2).flatMap toList) := by
          rw [rounds_eq]
          exact hrest.append_left _
        _ = spans.flatMap (fun s => s.takeBack.1.toList) ++
            spans.flatMap (fun s => s.takeBack.2.toList) := by
          rw [List.filterMap_eq_flatMap_toList, List.flatMap_map]
        List.Perm _ (spans.flatMap fun s => s.takeBack.2.toList ++ s.takeBack.1.toList) :=
          List.perm_append_comm.trans (List.flatMap_append_perm _ _ _)
        _ = spans.flatMap toList := by simp only [toList_takeBack]

/-- The place of the span at `p` among the spans other than that at `self`. -/
def place (self p : Nat) : Nat := if p ≤ self then p else p - 1

/-- What is left of the rounds over all spans but that at `self` when one of them has come to `p`. -/
def roundsFrom (self p : Nat) (spans : List Span) : List Nat :=
  roundsOn ((spans.eraseIdx self).take (place self p)) ((spans.eraseIdx self).drop (place self p))

section

variable {self p : Nat} {spans : List Span}

theorem place_succ (h : p ≠ self) : place self (p + 1) = place self p + 1 := by
  simp only [place]
  split <;> split <;> omega

theorem place_succ_self (self : Nat) : place self (self + 1) = place self self := by
  simp [place]

theorem getElem?_place (h : p ≠ self) : (spans.eraseIdx self)[place self p]? = spans[p]? := by
  rw [List.getElem?_eraseIdx, place]
  rcases Nat.lt_or_gt_of_ne h with hlt | hgt
  · rw [if_pos (Nat.le_of_lt hlt), if_pos hlt]
  · rw [if_neg (Nat.not_le_of_lt hgt), if_neg (by omega), Nat.sub_add_cancel (by omega)]

theorem eraseIdx_set (h : p ≠ self) (s : Span) :
    (spans.set p s).eraseIdx self = (spans.eraseIdx self).set (place self p) s := by
  rw [place]
  rcases Nat.lt_or_gt_of_ne h with hlt | hgt
  · rw [if_pos (Nat.le_of_lt hlt), List.eraseIdx_set_gt hlt]
  · rw [if_neg (Nat.not_le_of_lt hgt), List.eraseIdx_set_lt hgt]

theorem roundsFrom_zero (self : Nat) (spans : List Span) :
    roundsFrom self 0 spans = rounds (spans.eraseIdx self) := by
  simp [roundsFrom, place, roundsOn_nil]

theorem roundsFrom_succ_self (self : Nat) (spans : List Span) :
    roundsFrom self (self + 1) spans = roundsFrom self self spans := by
  rw [roundsFrom, place_succ_self, roundsFrom]

theorem roundsFrom_end (hself : self < spans.length) (hend : spans.length ≤ p) :
    roundsFrom self p spans = rounds (spans.eraseIdx self) := by
  have hall : (spans.eraseIdx self).length ≤ place self p := by
    rw [List.length_eraseIdx_of_lt hself, place]
    split <;> omega
  rw [roundsFrom, List.take_of_length_le hall, List.drop_of_length_le hall, roundsOn_end]

/-- The span at `p` gives its last index, if it has one, and the round goes on behind it. -/
theorem roundsFrom_eq {s : Span} (hp : p ≠ self) (hs : spans[p]? = some s) :
    roundsFrom self p spans =
      s.takeBack.1.toList ++ roundsFrom self (p + 1) (spans.set p s.takeBack.2) := by
  rw [← getElem?_place hp] at hs
  obtain ⟨hlt, hget⟩ := List.getElem?_eq_some_iff.mp hs
  have hvisited : ((spans.eraseIdx self).set (place self p) s.takeBack.2).take
      (place self p + 1) = (spans.eraseIdx self).take (place self p) ++ [s.takeBack.2] := by
    rw [List.take_succ_eq_append_getElem (by simpa only [List.length_set] using hlt),
      List.getElem_set_self, List.take_set, List.set_eq_of_length_le]
    exact List.length_take_le _ _
  rw [roundsFrom, roundsFrom, place_succ hp, eraseIdx_set hp, hvisited,
    List.drop_set_of_lt (Nat.lt_succ_self _), List.drop_eq_getElem_cons hlt, hget, roundsOn_cons]

end

end Span

end Elementwise
