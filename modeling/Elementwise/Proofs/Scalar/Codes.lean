import Elementwise.Scalar.Signature
import Mathlib.Data.List.Basic
import Mathlib.Data.Set.List

/-!
Lists of type codes. A list is a signature's own codes or it is rejected: it has an unknown code, or
no code is left for an input.
-/

namespace Elementwise

namespace ScalarType

theorem getElem?_all (i : Nat) (t : ScalarType) : all[i]? = some t ↔ t.code.toNat = i := by
  rcases i with _ | _ | _ | _ | _ | _ | i <;> cases t <;> simp [all, code]

@[simp] theorem ofCode?_eq_some_iff {number : UInt8} {t : ScalarType} :
    ofCode? number = some t ↔ t.code = number := by
  rw [ofCode?, getElem?_all, UInt8.toNat_inj]

theorem code_injective : Function.Injective code := by
  intro t u h
  have hread := ofCode?_code u
  rw [← h, ofCode?_code] at hread
  exact Option.some.inj hread

theorem code_le (t : ScalarType) : t.code ≤ 5 := by cases t <;> decide

theorem exists_code_eq {number : UInt8} (h : number ≤ 5) : ∃ t : ScalarType, t.code = number := by
  have hlt : number.toNat < all.length := Nat.lt_succ_of_le (UInt8.le_iff_toNat_le.mp h)
  exact ⟨_, ofCode?_eq_some_iff.mp (List.getElem?_eq_getElem hlt)⟩

theorem exists_map_code_eq {codes : List UInt8} (h : ∀ number ∈ codes, number ≤ 5) :
    ∃ types : List ScalarType, types.map code = codes := by
  rw [← Set.mem_range, Set.range_list_map]
  intro number hnumber
  exact exists_code_eq (h number hnumber)

theorem mapM_ofCode?_eq_some_iff {codes : List UInt8} {types : List ScalarType} :
    codes.mapM ofCode? = some types ↔ types.map code = codes := by
  induction codes generalizing types with
  | nil => simp [eq_comm]
  | cons number codes ih =>
      simp only [List.mapM_cons, Option.bind_eq_bind, Option.pure_def, Option.bind_eq_some_iff,
        ofCode?_eq_some_iff, ih, Option.some.injEq]
      constructor
      · rintro ⟨t, rfl, rest, rfl, rfl⟩
        rfl
      · intro h
        cases types with
        | nil => cases h
        | cons t rest =>
            obtain ⟨rfl, rfl⟩ := List.cons.inj h
            exact ⟨t, rfl, rest, rfl, rfl⟩

end ScalarType

namespace Signature

theorem ofTypes?_eq_some_iff {types : List ScalarType} {s : Signature} :
    ofTypes? types = some s ↔ s.inputs ++ [s.output] = types ∧ s.inputs ≠ [] := by
  obtain ⟨inputs, output⟩ := s
  constructor
  · intro h
    unfold ofTypes? at h
    split at h
    · rename_i last input rest hreverse
      cases h
      rw [← types.reverse_reverse, hreverse]
      simp
    · cases h
  · rintro ⟨rfl, hinputs⟩
    obtain ⟨front, input, rfl⟩ := (List.eq_nil_or_concat' inputs).resolve_left hinputs
    simp [ofTypes?]

/-- The codes of a signature are read back, and no other list is read. -/
theorem ofCodes?_eq_some_iff {codes : List UInt8} {s : Signature} :
    ofCodes? codes = some s ↔ s.codes = codes ∧ s.inputs ≠ [] := by
  simp only [ofCodes?, Option.bind_eq_some_iff, ScalarType.mapM_ofCode?_eq_some_iff,
    ofTypes?_eq_some_iff]
  constructor
  · rintro ⟨types, rfl, rfl, hinputs⟩
    exact ⟨rfl, hinputs⟩
  · rintro ⟨rfl, hinputs⟩
    exact ⟨_, rfl, rfl, hinputs⟩

theorem length_codes (s : Signature) : s.codes.length = s.arity + 1 := by
  simp [codes, arity]

theorem codes_eq_concat (s : Signature) :
    s.codes = s.inputs.map ScalarType.code ++ [s.output.code] := by
  rw [codes, List.map_append, List.map_singleton]

theorem codes_injective : Function.Injective codes := by
  intro s s' h
  obtain ⟨hinputs, houtput⟩ := List.append_inj' (ScalarType.code_injective.list_map h) rfl
  obtain ⟨inputs, output⟩ := s
  obtain rfl : inputs = s'.inputs := hinputs
  obtain rfl : output = s'.output := (List.cons.inj houtput).1
  rfl

/-- A list of codes is read if all of them are known and there is one for an input. -/
theorem isSome_ofCodes?_iff {codes : List UInt8} :
    (ofCodes? codes).isSome ↔ 2 ≤ codes.length ∧ ∀ number ∈ codes, number ≤ 5 := by
  rw [Option.isSome_iff_exists]
  simp only [ofCodes?_eq_some_iff]
  constructor
  · rintro ⟨s, rfl, hinputs⟩
    refine ⟨?_, fun number hnumber => ?_⟩
    · have hpos : 0 < s.arity := List.length_pos_iff.mpr hinputs
      rw [length_codes]
      omega
    · obtain ⟨t, -, rfl⟩ := List.mem_map.mp hnumber
      exact t.code_le
  · rintro ⟨hlength, hknown⟩
    obtain ⟨types, rfl⟩ := ScalarType.exists_map_code_eq hknown
    rw [List.length_map] at hlength
    obtain rfl | ⟨inputs, output, rfl⟩ := List.eq_nil_or_concat' types
    · exact absurd hlength (by decide)
    · refine ⟨⟨inputs, output⟩, rfl, ?_⟩
      rintro rfl
      exact absurd hlength (by simp)

/-- Exactly the lists of two or more codes below six are read. The codes of what is read are the
list, and a signature with an input is what is read from its codes. -/
theorem codes_read_without_loss (codes : List UInt8) :
    ((ofCodes? codes).isSome ↔ 2 ≤ codes.length ∧ ∀ number ∈ codes, number < 6) ∧
      (∀ s, ofCodes? codes = some s →
        s.inputs.map ScalarType.code ++ [s.output.code] = codes) ∧
      ∀ s : Signature, s.inputs ≠ [] →
        s.inputs.map ScalarType.code ++ [s.output.code] = codes →
          ofCodes? codes = some s ∧ s.arity + 1 = codes.length := by
  have hbelow : ∀ number : UInt8, number < 6 ↔ number ≤ 5 := fun number => by
    rw [UInt8.lt_iff_toNat_lt, UInt8.le_iff_toNat_le]
    exact Nat.lt_succ_iff
  simp only [hbelow, ← codes_eq_concat]
  refine ⟨isSome_ofCodes?_iff, ?_, ?_⟩
  · intro s hread
    exact (ofCodes?_eq_some_iff.mp hread).1
  · rintro s hinputs rfl
    exact ⟨ofCodes?_eq_some_iff.mpr ⟨rfl, hinputs⟩, s.length_codes.symm⟩

/-- Two inputs and an output are read. A lone code is not, nor is one that is unknown. -/
theorem codes_read_without_loss_of_two_inputs :
    ofCodes? [5, 2, 5] = some ⟨[.float64, .int32], .float64⟩ ∧
      (⟨[.float64, .int32], .float64⟩ : Signature).arity + 1 = 3 ∧
      (∃ s, ofCodes? [0, 3, 4, 1] = some s ∧
        s.inputs.map ScalarType.code ++ [s.output.code] = [0, 3, 4, 1]) ∧
      ofCodes? [5] = none ∧ ofCodes? [5, 9] = none := by
  obtain ⟨-, -, hback⟩ := codes_read_without_loss [5, 2, 5]
  obtain ⟨hread, harity⟩ := hback ⟨[.float64, .int32], .float64⟩ (by decide) rfl
  obtain ⟨hknown, hcodes, -⟩ := codes_read_without_loss [0, 3, 4, 1]
  obtain ⟨s, hs⟩ := Option.isSome_iff_exists.mp (hknown.mpr ⟨by decide, by simp⟩)
  refine ⟨hread, harity, ⟨s, hs, hcodes s hs⟩, ?_, ?_⟩
  · refine Option.not_isSome_iff_eq_none.mp fun hsome => ?_
    obtain ⟨hlength, -⟩ := (codes_read_without_loss [5]).1.mp hsome
    exact absurd hlength (by decide)
  · refine Option.not_isSome_iff_eq_none.mp fun hsome => ?_
    obtain ⟨-, hbelow⟩ := (codes_read_without_loss [5, 9]).1.mp hsome
    exact absurd (hbelow 9 (by simp)) (by decide)

end Signature

end Elementwise
