import Elementwise.Text.Numeral
import Mathlib.Data.Nat.Digits.Defs

/-!
Decimal numerals. The numeral of a number is the one of the standard library, its digits denote the
number, and it has no leading zero unless the number is zero.
-/

namespace Elementwise.Text

/-- A row of digits that stands for a number, the first digit being the most significant one. -/
structure Digits (digits : List Char) (n : Nat) : Prop where
  ne_nil : digits ≠ []
  isDigit : ∀ c ∈ digits, c.isDigit = true
  value : Nat.ofDigits 10 (digits.map digitValue).reverse = n

/-- An optional plus sign and a row of digits that stands for a number. -/
inductive Denotes : List Char → Nat → Prop where
  | unsigned {digits : List Char} {n : Nat} (h : Digits digits n) : Denotes digits n
  | signed {digits : List Char} {n : Nat} (h : Digits digits n) : Denotes ('+' :: digits) n

theorem digitsValue_eq (digits : List Char) :
    digitsValue digits = Nat.ofDigits 10 (digits.map digitValue).reverse := by
  rw [Nat.ofDigits_eq_foldr, List.foldr_reverse, List.foldl_map, digitsValue]
  simp only [Nat.cast_id, Nat.add_comm (digitValue _)]

theorem digitsValue_eq_ofDigitChars (digits : List Char) :
    digitsValue digits = Nat.ofDigitChars 10 digits 0 := rfl

theorem natural?_eq_some_iff {text : List Char} {n : Nat} :
    natural? text = some n ↔ Digits text n := by
  rw [natural?]
  split
  · rename_i h
    rw [Option.some_inj, digitsValue_eq]
    exact ⟨fun hvalue => ⟨h.1, List.all_eq_true.mp h.2, hvalue⟩, fun hdigits => hdigits.value⟩
  · rename_i h
    refine iff_of_false (fun hsome => by cases hsome) fun hdigits => ?_
    exact h ⟨hdigits.ne_nil, List.all_eq_true.mpr hdigits.isDigit⟩

theorem Digits.head_ne_plus {digits : List Char} {n : Nat} (h : Digits ('+' :: digits) n) :
    False := by
  have hplus := h.isDigit '+' List.mem_cons_self
  cases hplus

theorem word?_eq_some_iff {text : List Char} {n : Nat} :
    word? text = some n ↔ Denotes text n ∧ n < 2 ^ 64 := by
  unfold word?
  rw [Option.filter_eq_some_iff, natural?_eq_some_iff, decide_eq_true_iff]
  refine and_congr ?_ Iff.rfl
  split
  · constructor
    · exact .signed
    · intro h
      cases h with
      | unsigned h => exact h.head_ne_plus.elim
      | signed h => exact h
  · rename_i hsign
    constructor
    · exact .unsigned
    · intro h
      cases h with
      | unsigned h => exact h
      | signed h => exact absurd rfl (hsign _)

theorem digitChar_eq {digit : Nat} (h : digit < 10) : digitChar digit = Nat.digitChar digit := by
  match digit, h with
  | 0, _ | 1, _ | 2, _ | 3, _ | 4, _ | 5, _ | 6, _ | 7, _ | 8, _ | 9, _ => rfl

theorem numeral_eq_toDigits (n : Nat) : numeral n = Nat.toDigits 10 n := by
  induction n using Nat.strongRecOn with
  | ind n ih =>
      rw [numeral, Nat.toDigits_eq_if (by decide)]
      split
      · rename_i hsmall
        rw [digitChar_eq hsmall]
      · rename_i hlarge
        rw [ih (n / 10) (by omega), digitChar_eq (Nat.mod_lt n (by decide))]

theorem digits_toDigits (zeros n : Nat) :
    Digits (List.replicate zeros '0' ++ Nat.toDigits 10 n) n where
  ne_nil h := Nat.toDigits_ne_nil (List.append_eq_nil_iff.mp h).2
  isDigit c hc := by
    rcases List.mem_append.mp hc with hzero | hdigit
    · rw [List.eq_of_mem_replicate hzero]
      rfl
    · exact Nat.isDigit_of_mem_toDigits (by decide) (by decide) hdigit
  value := by
    rw [← digitsValue_eq, digitsValue_eq_ofDigitChars, Nat.ofDigitChars_append,
      Nat.ofDigitChars_replicate_zero, Nat.mul_zero, Nat.ofDigitChars_ten_toDigits]

theorem digits_numeral (n : Nat) : Digits (numeral n) n := by
  rw [numeral_eq_toDigits]
  exact digits_toDigits 0 n

theorem digitsValue_numeral (n : Nat) : digitsValue (numeral n) = n := by
  rw [digitsValue_eq]
  exact (digits_numeral n).value

theorem numeral_of_pos {n : Nat} (h : 0 < n) : ∃ c rest, numeral n = c :: rest ∧ c ≠ '0' := by
  induction n using Nat.strongRecOn with
  | ind n ih =>
      rw [numeral]
      split
      · rename_i hsmall
        refine ⟨digitChar n, [], rfl, ?_⟩
        match n, h, hsmall with
        | 1, _, _ | 2, _, _ | 3, _, _ | 4, _, _ | 5, _, _ | 6, _, _ | 7, _, _ | 8, _, _ | 9, _, _ =>
            decide
      · rename_i hlarge
        obtain ⟨c, rest, hnumeral, hc⟩ := ih (n / 10) (by omega) (by omega)
        exact ⟨c, rest ++ [digitChar (n % 10)], by rw [hnumeral, List.cons_append], hc⟩

end Elementwise.Text
