import Elementwise.Text.Blank
import Mathlib.Data.List.DropRight

/-!
Trimming. What is left of a text is its core, which has no blank at either end.
-/

namespace Elementwise.Text

/-- A text is its core between blanks. -/
structure Trimmed (text core : List Char) : Prop where
  around : ∃ before after, text = before ++ core ++ after ∧
    (∀ c ∈ before, isBlank c = true) ∧ ∀ c ∈ after, isBlank c = true
  head : ∀ c ∈ core.head?, isBlank c = false
  last : ∀ c ∈ core.getLast?, isBlank c = false

theorem trimEnd_eq (text : List Char) : trimEnd text = text.rdropWhile isBlank := rfl

theorem trimmed_trim (text : List Char) : Trimmed text (trim text) := by
  have hinner : (text.dropWhile isBlank).rdropWhile isBlank ++
      (text.dropWhile isBlank).rtakeWhile isBlank = text.dropWhile isBlank :=
    List.rdropWhile_append_rtakeWhile
  rw [trim, trimEnd_eq]
  refine ⟨⟨text.takeWhile isBlank, (text.dropWhile isBlank).rtakeWhile isBlank, ?_, ?_, ?_⟩, ?_, ?_⟩
  · rw [List.append_assoc, hinner, List.takeWhile_append_dropWhile]
  · exact fun c hc => List.mem_takeWhile_imp hc
  · exact fun c hc => List.mem_rtakeWhile_imp hc
  · intro c hc
    have hfirst := List.head?_dropWhile_not isBlank text
    have hsame : (text.dropWhile isBlank).head? = some c := by
      rw [← hinner, List.head?_append, hc, Option.some_or]
    rw [hsame] at hfirst
    exact hfirst
  · intro c hc
    obtain ⟨hne, rfl⟩ := List.mem_getLast?_eq_getLast hc
    exact Bool.eq_false_iff.mpr (List.rdropWhile_last_not isBlank _ hne)

theorem rdropWhile_append_of_blank {core after : List Char} (hafter : ∀ c ∈ after, isBlank c = true)
    (hlast : ∀ c ∈ core.getLast?, isBlank c = false) :
    (core ++ after).rdropWhile isBlank = core := by
  rw [List.rdropWhile, List.reverse_append, List.dropWhile_append_of_pos]
  · cases hcore : core.reverse with
    | nil => rw [List.dropWhile_nil, ← hcore, List.reverse_reverse]
    | cons c rest =>
        have hc : isBlank c = false := hlast c (by rw [← List.head?_reverse, hcore]; rfl)
        rw [List.dropWhile_cons_of_neg (by rw [hc]; decide), ← hcore, List.reverse_reverse]
  · exact fun c hc => hafter c (List.mem_reverse.mp hc)

theorem trim_eq_iff {text core : List Char} : trim text = core ↔ Trimmed text core := by
  constructor
  · rintro rfl
    exact trimmed_trim text
  · rintro ⟨⟨before, after, rfl, hbefore, hafter⟩, hhead, hlast⟩
    rw [trim, trimEnd_eq, List.append_assoc, List.dropWhile_append_of_pos hbefore]
    cases core with
    | nil =>
        rw [List.nil_append, List.dropWhile_eq_nil_iff.mpr hafter]
        rfl
    | cons c rest =>
        have hc : isBlank c = false := hhead c rfl
        rw [List.cons_append, List.dropWhile_cons_of_neg (by rw [hc]; decide), ← List.cons_append]
        exact rdropWhile_append_of_blank hafter hlast

/-- A text without blanks is the core of itself between any blanks. -/
theorem trimmed_of_not_blank {before core after : List Char}
    (hbefore : ∀ c ∈ before, isBlank c = true) (hcore : ∀ c ∈ core, isBlank c = false)
    (hafter : ∀ c ∈ after, isBlank c = true) : Trimmed (before ++ core ++ after) core where
  around := ⟨before, after, rfl, hbefore, hafter⟩
  head c hc := hcore c (List.mem_of_mem_head? hc)
  last c hc := hcore c (List.mem_of_mem_getLast? hc)

theorem not_blank_of_isDigit {c : Char} (h : c.isDigit = true) : isBlank c = false := by
  obtain ⟨hzero, hnine⟩ := Char.isDigit_iff_toNat.mp h
  change 48 ≤ c.toNat at hzero
  change c.toNat ≤ 57 at hnine
  simp only [isBlank, blankRanges, List.any_cons, List.any_nil, Bool.or_false, Bool.or_eq_false_iff,
    Bool.and_eq_false_iff, decide_eq_false_iff_not]
  omega

end Elementwise.Text
