import Elementwise.Json.Parser
import Elementwise.Json.Printer
import Mathlib.Data.List.Forall2

/-!
The text between quotes. Each character is written as one piece, by itself or by an escape, and the
pieces are put together again without loss.
-/

namespace Elementwise.Json

/-- A piece stands for a character by itself or, for a control character, by its code. -/
inductive Stands : Piece → Char → Prop where
  | char (c : Char) : Stands (.char c) c
  | code {c : Char} (h : c.toNat < 0x20) : Stands (.code c.toNat) c

theorem hexValue4?_hexChar :
    ∀ n < 0x20, hexValue4? '0' '0' (hexChar (n / 16)) (hexChar (n % 16)) = some n := by
  decide

theorem pieces_plain {c : Char} (hcontrol : ¬ c.toNat < 0x20) (hquote : c ≠ '"')
    (hslash : c ≠ '\\') (rest : List Char) :
    pieces (c :: rest) = (pieces rest).map fun (tail, after) => (.char c :: tail, after) := by
  rw [pieces, if_neg (not_or.mpr ⟨hcontrol, hslash⟩)]
  · exact hquote
  · exact fun _ _ _ _ _ h => absurd h hslash
  · exact fun _ _ h => absurd h hslash

theorem pieces_escaped (c : Char) :
    ∃ piece, Stands piece c ∧ ∀ rest, pieces (escaped c ++ rest) =
      (pieces rest).map fun (tail, after) => (piece :: tail, after) := by
  unfold escaped
  -- the quote, the backslash and the control characters that have a letter of their own
  iterate 7
    split
    · rename_i h
      subst h
      exact ⟨_, .char _, fun rest => rfl⟩
  split
  · rename_i hcontrol
    refine ⟨_, .code hcontrol, fun rest => ?_⟩
    simp only [List.cons_append, List.nil_append]
    rw [pieces, hexValue4?_hexChar _ hcontrol]
  · rename_i hquote hslash _ _ _ _ _ hcontrol
    exact ⟨_, .char c, pieces_plain hcontrol hquote hslash⟩

theorem pieces_flatMap (text rest : List Char) :
    ∃ found, List.Forall₂ Stands found text ∧
      pieces (text.flatMap escaped ++ '"' :: rest) = some (found, rest) := by
  induction text with
  | nil => exact ⟨[], .nil, rfl⟩
  | cons c text ih =>
      obtain ⟨found, hfound, hpieces⟩ := ih
      obtain ⟨piece, hpiece, hescaped⟩ := pieces_escaped c
      refine ⟨piece :: found, .cons hpiece hfound, ?_⟩
      rw [List.flatMap_cons, List.append_assoc, hescaped, hpieces]
      rfl

theorem assemble_code {unit : Nat} (h : unit < 0x20) (rest : List Piece) :
    assemble (.code unit :: rest) = (assemble rest).map (Char.ofNat unit :: ·) := by
  rw [assemble.eq_def (.code unit :: rest)]
  split
  · rename_i heq
    cases heq
  · rename_i heq
    cases heq
  · rename_i high low behind heq
    cases heq
    rw [if_neg (by omega), if_neg (by omega)]
  · rename_i heq
    cases heq
    rw [if_neg (by omega)]

theorem assemble_of_stands {found : List Piece} {text : List Char}
    (h : List.Forall₂ Stands found text) : assemble found = some text := by
  induction h with
  | nil => rfl
  | cons hpiece _ ih =>
      cases hpiece with
      | char c => rw [assemble, ih, Option.map_some]
      | code hcontrol => rw [assemble_code hcontrol, ih, Option.map_some, Char.ofNat_toNat]

theorem quoted_flatMap (text rest : List Char) :
    quoted (text.flatMap escaped ++ '"' :: rest) = some (some (String.ofList text), rest) := by
  obtain ⟨found, hfound, hpieces⟩ := pieces_flatMap text rest
  have hassemble := assemble_of_stands hfound
  simp only [quoted, hpieces, hassemble, Option.map_some]

end Elementwise.Json
