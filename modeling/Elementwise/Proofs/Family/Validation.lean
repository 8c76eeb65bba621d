import Elementwise.Family
import Elementwise.Kernel.Formula
import Mathlib.Data.List.Basic
import Mathlib.Order.Bounds.Basic

/-!
Building a family. The kernels are gone through in order, and the first that does not fit in with
the ones before it is reported. In a family that was built no two variants take the same types, so
that the types of a call pick one variant at most.
-/

namespace Elementwise

namespace Family

/-- The signature at a position does not fit in: it takes another number of inputs than the family,
or inputs of the same types occur at a position before it. -/
def Misfit (arity : Nat) (signatures : List Signature) (v : Nat) : Prop :=
  ∃ signature, signatures[v]? = some signature ∧
    (signature.arity ≠ arity ∨
      ∃ u < v, ∃ earlier, signatures[u]? = some earlier ∧ earlier.inputs = signature.inputs)

/-- What going through signatures comes to. -/
inductive Verdict (arity : Nat) (signatures : List Signature) : Option Rejection → Prop where
  | sound (h : ∀ v, ¬ Misfit arity signatures v) : Verdict arity signatures none
  | fault {v : Nat} {signature : Signature}
      (hleast : IsLeast {v | Misfit arity signatures v} v)
      (hsignature : signatures[v]? = some signature) :
      Verdict arity signatures (some (if signature.arity ≠ arity
        then .arityMismatch v arity signature.arity else .duplicateSignature signature))

section

variable {arity : Nat} {signatures : List Signature} {seen : List (List ScalarType)}

theorem misfit_append_iff {signature : Signature} {later : List Signature}
    (hseen : ∀ types, types ∈ seen ↔ types ∈ signatures.map Signature.inputs) :
    Misfit arity (signatures ++ signature :: later) signatures.length ↔
      signature.arity ≠ arity ∨ signature.inputs ∈ seen := by
  have hat : (signatures ++ signature :: later)[signatures.length]? = some signature := by simp
  have hearlier : (∃ u < signatures.length, ∃ earlier,
      (signatures ++ signature :: later)[u]? = some earlier ∧
        earlier.inputs = signature.inputs) ↔ signature.inputs ∈ seen := by
    rw [hseen, List.mem_map]
    constructor
    · rintro ⟨u, hu, earlier, hget, hinputs⟩
      rw [List.getElem?_append_left hu] at hget
      exact ⟨earlier, List.mem_of_getElem? hget, hinputs⟩
    · rintro ⟨earlier, hmem, hinputs⟩
      obtain ⟨u, hget⟩ := List.mem_iff_getElem?.mp hmem
      have hu : u < signatures.length := (List.getElem?_eq_some_iff.mp hget).1
      exact ⟨u, hu, earlier, (List.getElem?_append_left hu).trans hget, hinputs⟩
  rw [Misfit, hat, ← hearlier]
  simp

/-- Going on behind signatures that all fit in comes to a verdict on all of them. -/
theorem verdict_fault? (kernels : List Kernel)
    (hseen : ∀ types, types ∈ seen ↔ types ∈ signatures.map Signature.inputs)
    (hfits : ∀ v < signatures.length,
      ¬ Misfit arity (signatures ++ kernels.map Kernel.signature) v) :
    Verdict arity (signatures ++ kernels.map Kernel.signature)
      (fault? arity signatures.length seen kernels) := by
  induction kernels generalizing signatures seen with
  | nil =>
      refine .sound fun v hmisfit => ?_
      have hlt : v < signatures.length := by
        obtain ⟨signature, hget, -⟩ := hmisfit
        simpa using (List.getElem?_eq_some_iff.mp hget).1
      exact hfits v hlt hmisfit
  | cons kernel kernels ih =>
      have hhere : Misfit arity (signatures ++ (kernel :: kernels).map Kernel.signature)
          signatures.length ↔
            kernel.signature.arity ≠ arity ∨ kernel.signature.inputs ∈ seen :=
        misfit_append_iff hseen
      by_cases hmisfit : Misfit arity (signatures ++ (kernel :: kernels).map Kernel.signature)
          signatures.length
      · -- the first misfit of all
        have hleast : IsLeast
            {v | Misfit arity (signatures ++ (kernel :: kernels).map Kernel.signature) v}
            signatures.length :=
          ⟨hmisfit, fun v hv => Nat.le_of_not_lt fun hlt => hfits v hlt hv⟩
        have hat : (signatures ++ (kernel :: kernels).map Kernel.signature)[signatures.length]? =
            some kernel.signature := by simp
        have hfault := Verdict.fault hleast hat
        rw [fault?]
        by_cases harity : kernel.signature.arity ≠ arity
        · rw [if_pos harity] at hfault ⊢
          exact hfault
        · have hduplicate := (hhere.mp hmisfit).resolve_left harity
          rw [if_neg harity] at hfault ⊢
          rw [if_pos hduplicate]
          exact hfault
      · have hclean := not_or.mp (fun hfault => hmisfit (hhere.mpr hfault))
        rw [fault?, if_neg hclean.1, if_neg hclean.2]
        have hrest := @ih (signatures ++ [kernel.signature]) (kernel.signature.inputs :: seen)
        simp only [List.append_assoc, List.singleton_append, List.length_append,
          List.length_singleton] at hrest
        refine hrest ?_ ?_
        · intro types
          simp [hseen types, or_comm, eq_comm]
        · intro v hlt
          rcases Nat.lt_succ_iff_lt_or_eq.mp hlt with hbefore | rfl
          · exact hfits v hbefore
          · exact hmisfit

theorem Verdict.sound_iff {reason? : Option Rejection} (h : Verdict arity signatures reason?) :
    reason? = none ↔ ∀ v, ¬ Misfit arity signatures v := by
  cases h with
  | sound hsound => exact iff_of_true rfl hsound
  | fault hleast => exact iff_of_false (Option.some_ne_none _) fun hsound => hsound _ hleast.1

theorem Verdict.eq_fault {reason? : Option Rejection} (h : Verdict arity signatures reason?)
    {v : Nat} {signature : Signature} (hleast : IsLeast {v | Misfit arity signatures v} v)
    (hsignature : signatures[v]? = some signature) :
    reason? = some (if signature.arity ≠ arity then .arityMismatch v arity signature.arity
      else .duplicateSignature signature) := by
  cases h with
  | sound hsound => exact absurd hleast.1 (hsound v)
  | fault hleast' hsignature' =>
      obtain rfl := hleast.unique hleast'
      obtain rfl := Option.some.inj (hsignature.symm.trans hsignature')
      rfl

/-- Where every signature fits in, inputs of the same types are at the same position. -/
theorem eq_of_inputs_eq (hfits : ∀ v, ¬ Misfit arity signatures v) {u v : Nat}
    {signature other : Signature} (hu : signatures[u]? = some signature)
    (hv : signatures[v]? = some other) (hinputs : signature.inputs = other.inputs) : u = v := by
  rcases Nat.lt_trichotomy u v with hlt | heq | hlt
  · exact absurd ⟨other, hv, .inr ⟨u, hlt, signature, hu, hinputs⟩⟩ (hfits v)
  · exact heq
  · exact absurd ⟨signature, hu, .inr ⟨v, hlt, other, hv, hinputs.symm⟩⟩ (hfits u)

end

/-- The verdict on all kernels of a family to be. -/
theorem verdict (arity : Nat) (kernels : List Kernel) :
    Verdict arity (kernels.map Kernel.signature) (fault? arity 0 [] kernels) :=
  @verdict_fault? arity [] [] kernels (fun _ => Iff.rfl)
    fun v hv => absurd hv (Nat.not_lt_zero v)

theorem build?_cons_eq_ok {first : Kernel} (harity : first.arity ≠ 0) {rest : List Kernel}
    (hfault : fault? first.arity 0 [] (first :: rest) = none) :
    build? (first :: rest) = .ok ⟨first.arity, first :: rest⟩ := by
  simp only [build?, if_neg harity, hfault]

theorem build?_cons_eq_error {first : Kernel} (harity : first.arity ≠ 0) {rest : List Kernel}
    {reason : Rejection} (hfault : fault? first.arity 0 [] (first :: rest) = some reason) :
    build? (first :: rest) = .error reason := by
  simp only [build?, if_neg harity, hfault]

/-- What a family was built from. -/
theorem exists_of_build? {variants : List Kernel} {f : Family} (h : build? variants = .ok f) :
    ∃ first rest, variants = first :: rest ∧ f = ⟨first.arity, first :: rest⟩ ∧
      ∀ v, ¬ Misfit f.arity f.signatures v := by
  cases variants with
  | nil => cases h
  | cons first rest =>
      by_cases harity : first.arity = 0
      · rw [build?, if_pos harity] at h
        cases h
      · cases hfault : fault? first.arity 0 [] (first :: rest) with
        | some reason =>
            rw [build?_cons_eq_error harity hfault] at h
            cases h
        | none =>
            rw [build?_cons_eq_ok harity hfault] at h
            cases h
            exact ⟨first, rest, rfl, rfl, (verdict first.arity (first :: rest)).sound_iff.mp hfault⟩

theorem resolve?_eq_some_iff {f : Family} (hfits : ∀ v, ¬ Misfit f.arity f.signatures v)
    {inputs : List ScalarType} {output : ScalarType} {v : Nat} :
    f.resolve? inputs output = some v ↔ ∃ signature, f.signatures[v]? = some signature ∧
      signature.inputs = inputs ∧ signature.output = output := by
  rw [resolve?, List.findIdx?_eq_some_iff_getElem]
  constructor
  · rintro ⟨hlt, hmatches, -⟩
    exact ⟨f.signatures[v], List.getElem?_eq_getElem hlt, of_decide_eq_true hmatches⟩
  · rintro ⟨signature, hget, hmatches⟩
    obtain ⟨hlt, rfl⟩ := List.getElem?_eq_some_iff.mp hget
    refine ⟨hlt, decide_eq_true hmatches, fun u hu hearlier => ?_⟩
    have hsame := (of_decide_eq_true hearlier).1.trans hmatches.1.symm
    have heq := eq_of_inputs_eq hfits (List.getElem?_eq_getElem (Nat.lt_trans hu hlt)) hget hsame
    exact Nat.ne_of_lt hu heq

/-- A list of kernels is turned down for being empty, for a first kernel that takes no input, and
else for the first signature that does not fit in; otherwise it becomes a family that keeps all of
them in order. In a family a variant is picked exactly if its signature has the types of the call,
and no two variants have the same input types. -/
theorem validation_reports_first_misfit (variants : List Kernel) :
    (variants = [] → build? variants = .error .emptyFamily) ∧
    (∀ first, variants.head? = some first → first.arity = 0 →
      build? variants = .error .noInputs) ∧
    (∀ first, variants.head? = some first → first.arity ≠ 0 →
      (∀ v signature,
        IsLeast {v | Misfit first.arity (variants.map Kernel.signature) v} v →
        (variants.map Kernel.signature)[v]? = some signature →
        build? variants = .error (if signature.arity ≠ first.arity
          then .arityMismatch v first.arity signature.arity
          else .duplicateSignature signature)) ∧
      ((∃ f, build? variants = .ok f) ↔
        ∀ v, ¬ Misfit first.arity (variants.map Kernel.signature) v)) ∧
    ∀ f, build? variants = .ok f →
      f.signatures = variants.map Kernel.signature ∧ f.variants = variants ∧
      (∀ inputs output v, f.resolve? inputs output = some v ↔
        ∃ signature, f.signatures[v]? = some signature ∧ signature.inputs = inputs ∧
          signature.output = output) ∧
      ∀ (u v : Nat) (signature other : Signature), f.signatures[u]? = some signature →
        f.signatures[v]? = some other → signature.inputs = other.inputs → u = v := by
  refine ⟨?_, ?_, ?_, ?_⟩
  · rintro rfl
    rfl
  · intro first hfirst hzero
    obtain ⟨rest, rfl⟩ := List.head?_eq_some_iff.mp hfirst
    exact if_pos hzero
  · intro first hfirst harity
    obtain ⟨rest, rfl⟩ := List.head?_eq_some_iff.mp hfirst
    have hverdict := verdict first.arity (first :: rest)
    refine ⟨fun v signature hleast hsignature => ?_, ?_⟩
    · exact build?_cons_eq_error harity (hverdict.eq_fault hleast hsignature)
    · constructor
      · rintro ⟨f, hbuilt⟩
        obtain ⟨_, _, hvariants, rfl, hfits⟩ := exists_of_build? hbuilt
        cases hvariants
        exact hfits
      · intro hfits
        exact ⟨_, build?_cons_eq_ok harity (hverdict.sound_iff.mpr hfits)⟩
  · intro f hbuilt
    obtain ⟨first, rest, rfl, rfl, hfits⟩ := exists_of_build? hbuilt
    refine ⟨rfl, rfl, fun inputs output v => resolve?_eq_some_iff hfits, ?_⟩
    intro u v signature other hu hv hinputs
    exact eq_of_inputs_eq hfits hu hv hinputs

/-- The third of four kernels repeats the input types of the first, and the fourth takes two inputs.
Without these two there is a family, of which the second variant is picked. -/
theorem validation_reports_first_misfit_of_repetition :
    build? [.ofFormula .neg .int8, .ofFormula .neg .int16, .conversion .int8 .float64,
        .ofFormula .add .int8] = .error (.duplicateSignature ⟨[.int8], .float64⟩) ∧
      ∃ f, build? [.ofFormula .neg .int8, .ofFormula .neg .int16] = .ok f ∧
        f.resolve? [.int16] .int16 = some 1 := by
  constructor
  · have h := validation_reports_first_misfit [.ofFormula .neg .int8, .ofFormula .neg .int16,
      .conversion .int8 .float64, .ofFormula .add .int8]
    refine (h.2.2.1 _ rfl (by decide)).1 2 ⟨[.int8], .float64⟩ ⟨?_, ?_⟩ rfl
    · exact ⟨_, rfl, .inr ⟨0, by decide, _, rfl, rfl⟩⟩
    · rintro v ⟨signature, hget, hfault⟩
      match v with
      | 0 =>
          cases hget
          rcases hfault with harity | ⟨u, hu, -⟩
          · exact absurd rfl harity
          · exact absurd hu (Nat.not_lt_zero u)
      | 1 =>
          cases hget
          rcases hfault with harity | ⟨u, hu, earlier, hearlier, hinputs⟩
          · exact absurd rfl harity
          · obtain rfl : u = 0 := by omega
            cases hearlier
            cases hinputs
      | v + 2 => exact Nat.le_add_left 2 v
  · obtain ⟨-, -, -, hbuilt⟩ :=
      validation_reports_first_misfit [.ofFormula .neg .int8, .ofFormula .neg .int16]
    obtain ⟨f, hf⟩ : ∃ f, build? [.ofFormula .neg .int8, .ofFormula .neg .int16] = .ok f := ⟨_, rfl⟩
    obtain ⟨hsignatures, -, hresolve, -⟩ := hbuilt f hf
    refine ⟨f, hf, (hresolve _ _ 1).mpr ⟨⟨[.int16], .int16⟩, ?_, rfl, rfl⟩⟩
    rw [hsignatures]
    rfl

end Family

end Elementwise
