import Elementwise.Proofs.Json.Pieces
import Elementwise.Proofs.Text.Numeral
import Mathlib.Data.List.TakeDrop

/-!
Written text reads back. A value is read from the front of its text, whatever stands behind it, as
long as that cannot be taken for more of a numeral.
-/

namespace Elementwise.Json

open Text (digits_numeral digitsValue_numeral numeral_of_pos)

/-- What may stand behind a value: nothing, or what separates values or closes a row of them. -/
inductive Stops : List Char → Prop where
  | nil : Stops []
  | comma (rest : List Char) : Stops (',' :: rest)
  | bracket (rest : List Char) : Stops (']' :: rest)
  | brace (rest : List Char) : Stops ('\x7d' :: rest)

theorem spanDigits_append {digits after : List Char} (hdigits : ∀ c ∈ digits, c.isDigit = true)
    (h : Stops after) : spanDigits (digits ++ after) = (digits, after) := by
  have htake : after.takeWhile Char.isDigit = [] := by cases h <;> rfl
  have hdrop : after.dropWhile Char.isDigit = after := by cases h <;> rfl
  rw [spanDigits, List.span_eq_takeWhile_dropWhile, List.takeWhile_append_of_pos hdigits,
    List.dropWhile_append_of_pos hdigits, htake, hdrop, List.append_nil]

theorem integerPart_numeral (n : Nat) {after : List Char} (h : Stops after) :
    integerPart (Text.numeral n ++ after) = some (Text.numeral n, after) := by
  have hspan := spanDigits_append (digits_numeral n).isDigit h
  rcases Nat.eq_zero_or_pos n with rfl | hpos
  · rw [Text.numeral]
    rfl
  · obtain ⟨c, rest, hnumeral, hc⟩ := numeral_of_pos hpos
    rw [hnumeral, List.cons_append] at hspan ⊢
    rw [integerPart, hspan]
    exact fun _ h => hc (List.cons.inj h).1

theorem fractionPart_of_stops {after : List Char} (h : Stops after) :
    fractionPart after = some ([], after) := by
  cases h <;> rfl

theorem exponentPart_of_stops {after : List Char} (h : Stops after) :
    exponentPart after = some ([], after) := by
  cases h <;> rfl

theorem unsigned_numeral (n : Nat) {after : List Char} (h : Stops after) :
    unsigned (Text.numeral n ++ after) = some (natural n, after) := by
  simp only [unsigned, integerPart_numeral n h, fractionPart_of_stops h, exponentPart_of_stops h,
    Option.bind_eq_bind, Option.bind_some, List.append_nil, digitsValue_numeral]
  rfl

theorem numeral_head (n : Nat) : ∃ c rest, Text.numeral n = c :: rest ∧ c.isDigit = true := by
  obtain ⟨hne, hdigit, -⟩ := digits_numeral n
  obtain ⟨c, rest, hnumeral⟩ := List.exists_cons_of_ne_nil hne
  exact ⟨c, rest, hnumeral, hdigit c (by rw [hnumeral]; exact List.mem_cons_self)⟩

theorem number_numeral (n : Nat) {after : List Char} (h : Stops after) :
    number (Text.numeral n ++ after) = some (natural n, after) := by
  rw [← unsigned_numeral n h]
  obtain ⟨c, rest, hnumeral, hdigit⟩ := numeral_head n
  rw [hnumeral, List.cons_append, number]
  rintro _ ⟨⟩
  exact absurd hdigit (by decide)

theorem number_negative (n : Nat) {after : List Char} (h : Stops after) :
    number ('-' :: (Text.numeral n ++ after)) = some (numeral ('-' :: Text.numeral n), after) := by
  rw [number, unsigned_numeral n h, Option.map_some]

/-- The values that are written without loss. A numeral with a point or an exponent is not among
them, nor is text with half of a surrogate pair. -/
inductive Legible : Json → Prop where
  | null : Legible null
  | bool (value : Bool) : Legible (bool value)
  | natural (value : Nat) : Legible (natural value)
  | negative (magnitude : Nat) : Legible (numeral ('-' :: Text.numeral magnitude))
  | string (text : String) : Legible (string text)
  | array {items : List Json} (h : ∀ item ∈ items, Legible item) : Legible (array items)
  | object {members : List (Option String × Json)} (hkeys : ∀ member ∈ members, member.1.isSome)
      (h : ∀ member ∈ members, Legible member.2) : Legible (object members)

theorem Legible.ofMembers {members : List (String × Json)}
    (h : ∀ member ∈ members, Legible member.2) : Legible (ofMembers members) := by
  refine .object (fun member hmember => ?_) fun member hmember => ?_
  · obtain ⟨named, -, rfl⟩ := List.mem_map.mp hmember
    rfl
  · obtain ⟨named, hnamed, rfl⟩ := List.mem_map.mp hmember
    exact h named hnamed

theorem Legible.ofMembers_zip {fields : List String} {values : List Json}
    (h : ∀ value ∈ values, Legible value) : Legible (Json.ofMembers (fields.zip values)) :=
  .ofMembers fun member hmember => h member.2 (List.of_mem_zip hmember).2

/-- The text begins with a value, and not with the end of a row of values. -/
def Opens (text : List Char) : Prop :=
  ∃ c rest, text = c :: rest ∧ isSpace c = false ∧ c ≠ ']'

theorem isSpace_of_isDigit {c : Char} (h : c.isDigit = true) : isSpace c = false := by
  simp only [isSpace, Bool.or_eq_false_iff, beq_eq_false_iff_ne]
  refine ⟨⟨⟨?_, ?_⟩, ?_⟩, ?_⟩ <;> rintro rfl <;> cases h

theorem Legible.opens {json : Json} (h : Legible json) : Opens (render json) := by
  cases h with
  | null => exact ⟨'n', _, by rw [render]; rfl, rfl, by decide⟩
  | bool value => cases value <;> exact ⟨_, _, rfl, rfl, by decide⟩
  | natural n =>
      obtain ⟨c, rest, hnumeral, hdigit⟩ := numeral_head n
      refine ⟨c, rest, by rw [render, hnumeral], isSpace_of_isDigit hdigit, ?_⟩
      rintro rfl
      cases hdigit
  | negative n => exact ⟨'-', _, by rw [render], rfl, by decide⟩
  | string text => exact ⟨'"', _, by rw [render]; rfl, rfl, by decide⟩
  | @array items _ =>
      cases items with
      | nil => exact ⟨'[', _, by rw [render], rfl, by decide⟩
      | cons item rest => exact ⟨'[', _, by rw [render, List.cons_append], rfl, by decide⟩
  | @object members _ _ =>
      cases members with
      | nil => exact ⟨'\x7b', _, by rw [render], rfl, by decide⟩
      | cons member rest => exact ⟨'\x7b', _, by rw [render]; rfl, rfl, by decide⟩

theorem skipSpace_cons {c : Char} (h : isSpace c = false) (rest : List Char) :
    skipSpace (c :: rest) = c :: rest :=
  List.dropWhile_cons_of_neg (by rw [h]; decide)

/-- A value is read from the front of its text. -/
def Reads (json : Json) : Prop :=
  ∀ fuel after, (render json).length ≤ fuel → Stops after →
    value fuel (render json ++ after) = some (json, after)

theorem value_number (fuel : Nat) {c : Char} (text : List Char) (h : c.isDigit = true ∨ c = '-') :
    value (fuel + 1) (c :: text) = number (c :: text) := by
  have hspace : isSpace c = false := by
    rcases h with h | rfl
    · exact isSpace_of_isDigit h
    · rfl
  rw [value, skipSpace_cons hspace]
  split
  case h_7 => rfl
  -- every other first character is neither a digit nor a minus sign
  all_goals
    rename_i heq
    cases heq
    exact absurd h (by decide)

theorem Opens.append {text : List Char} (h : Opens text) (after : List Char) :
    Opens (text ++ after) := by
  obtain ⟨c, rest, rfl, hspace, hbracket⟩ := h
  exact ⟨c, rest ++ after, rfl, hspace, hbracket⟩

theorem items_render {item : Json} {rest : List Json} (h : ∀ json ∈ item :: rest, Reads json)
    {fuel : Nat} (after : List Char)
    (hfuel : (render item).length + (renderItems rest).length ≤ fuel) :
    items fuel (render item ++ (renderItems rest ++ after)) = some (item :: rest, after) := by
  induction rest generalizing item fuel with
  | nil =>
      rw [renderItems, List.length_singleton] at hfuel
      obtain ⟨fuel, rfl⟩ : ∃ less, fuel = less + 1 := ⟨fuel - 1, by omega⟩
      have hvalue := h item List.mem_cons_self fuel (']' :: after) (by omega) (.bracket after)
      rw [items, renderItems, List.singleton_append, hvalue]
      rfl
  | cons next rest ih =>
      rw [renderItems, List.cons_append, List.length_cons, List.length_append] at hfuel
      obtain ⟨fuel, rfl⟩ : ∃ less, fuel = less + 1 := ⟨fuel - 1, by omega⟩
      have hvalue := h item List.mem_cons_self fuel
        (',' :: (render next ++ (renderItems rest ++ after))) (by omega) (.comma _)
      have hless : (render next).length + (renderItems rest).length ≤ fuel := by omega
      have hrest := ih (fun json hjson => h json (List.mem_cons_of_mem _ hjson)) hless
      rw [items, renderItems, List.cons_append, List.cons_append, List.append_assoc, hvalue]
      change (items fuel (render next ++ (renderItems rest ++ after))).map _ = _
      rw [hrest, Option.map_some]

theorem quoted_renderKey {key : Option String} (h : key.isSome) (after : List Char) :
    ∃ text, renderKey key = '"' :: text ∧ quoted (text ++ after) = some (key, after) := by
  obtain ⟨key, rfl⟩ := Option.isSome_iff_exists.mp h
  refine ⟨key.toList.flatMap escaped ++ ['"'], rfl, ?_⟩
  rw [List.append_assoc, List.singleton_append, quoted_flatMap, String.ofList_toList]

theorem members_comma {fuel : Nat} {key : Option String} {item : Json} {text rest : List Char}
    (hkey : key.isSome) (hvalue : value fuel text = some (item, ',' :: rest)) :
    members (fuel + 1) (renderKey key ++ ':' :: text) =
      (members fuel rest).map fun (tail, after) => ((key, item) :: tail, after) := by
  obtain ⟨quote, hquote, hquoted⟩ := quoted_renderKey hkey (':' :: text)
  have hcolon : skipSpace (':' :: text) = ':' :: text := skipSpace_cons rfl text
  have hcomma : skipSpace (',' :: rest) = ',' :: rest := skipSpace_cons rfl rest
  rw [hquote, List.cons_append, members, skipSpace_cons rfl]
  simp only [hquoted, hcolon, hvalue, hcomma]

theorem members_brace {fuel : Nat} {key : Option String} {item : Json} {text after : List Char}
    (hkey : key.isSome) (hvalue : value fuel text = some (item, '\x7d' :: after)) :
    members (fuel + 1) (renderKey key ++ ':' :: text) = some ([(key, item)], after) := by
  obtain ⟨quote, hquote, hquoted⟩ := quoted_renderKey hkey (':' :: text)
  have hcolon : skipSpace (':' :: text) = ':' :: text := skipSpace_cons rfl text
  have hbrace : skipSpace ('\x7d' :: after) = '\x7d' :: after := skipSpace_cons rfl after
  rw [hquote, List.cons_append, members, skipSpace_cons rfl]
  simp only [hquoted, hcolon, hvalue, hbrace]

theorem members_render {member : Option String × Json} {rest : List (Option String × Json)}
    (hkeys : ∀ named ∈ member :: rest, named.1.isSome)
    (h : ∀ named ∈ member :: rest, Reads named.2) {fuel : Nat} (after : List Char)
    (hfuel : (renderKey member.1).length + (render member.2).length + (renderMembers rest).length <
      fuel) :
    members fuel (renderKey member.1 ++ ':' :: (render member.2 ++ (renderMembers rest ++ after))) =
      some (member :: rest, after) := by
  induction rest generalizing member fuel with
  | nil =>
      rw [renderMembers, List.length_singleton] at hfuel
      obtain ⟨fuel, rfl⟩ : ∃ less, fuel = less + 1 := ⟨fuel - 1, by omega⟩
      have hvalue := h member List.mem_cons_self fuel ('\x7d' :: after) (by omega) (.brace after)
      rw [renderMembers, List.singleton_append,
        members_brace (hkeys member List.mem_cons_self) hvalue]
  | cons next rest ih =>
      rw [renderMembers, List.cons_append, List.cons_append] at hfuel
      simp only [List.length_cons, List.length_append] at hfuel
      obtain ⟨fuel, rfl⟩ : ∃ less, fuel = less + 1 := ⟨fuel - 1, by omega⟩
      have hvalue := h member List.mem_cons_self fuel
        (',' :: (renderKey next.1 ++ ':' :: (render next.2 ++ (renderMembers rest ++ after))))
        (by omega) (.comma _)
      have hless : (renderKey next.1).length + (render next.2).length +
          (renderMembers rest).length < fuel := by omega
      have hrest := ih (fun named hnamed => hkeys named (List.mem_cons_of_mem _ hnamed))
        (fun named hnamed => h named (List.mem_cons_of_mem _ hnamed)) hless
      rw [renderMembers, List.cons_append, List.cons_append]
      simp only [List.append_assoc, List.cons_append]
      rw [members_comma (hkeys member List.mem_cons_self) hvalue, hrest, Option.map_some]

theorem value_array {fuel : Nat} {text : List Char} (h : Opens text) :
    value (fuel + 1) ('[' :: text) =
      (items fuel text).map fun (found, after) => (array found, after) := by
  obtain ⟨c, rest, rfl, hspace, hbracket⟩ := h
  have hopen : skipSpace ('[' :: c :: rest) = '[' :: c :: rest := skipSpace_cons rfl _
  simp only [value, hopen, skipSpace_cons hspace]
  split
  · rename_i heq
    exact absurd (List.cons.inj heq).1 hbracket
  · rfl

theorem value_object {fuel : Nat} {key : Option String} (h : key.isSome) (text : List Char) :
    value (fuel + 1) ('\x7b' :: (renderKey key ++ text)) =
      (members fuel (renderKey key ++ text)).map fun (found, after) => (object found, after) := by
  obtain ⟨quote, hquote, -⟩ := quoted_renderKey h text
  rw [hquote, List.cons_append, value]
  rfl

theorem Legible.reads_of_succ {json : Json} (h : Legible json)
    (hvalue : ∀ fuel after, (render json).length ≤ fuel + 1 → Stops after →
      value (fuel + 1) (render json ++ after) = some (json, after)) : Reads json := by
  intro fuel after hfuel hstops
  obtain ⟨c, rest, htext, -, -⟩ := h.opens
  cases fuel with
  | zero => rw [htext] at hfuel; cases hfuel
  | succ fuel => exact hvalue fuel after hfuel hstops

theorem Legible.reads {json : Json} (h : Legible json) : Reads json := by
  have hjson := h
  induction h with
  | null => exact hjson.reads_of_succ fun fuel after _ _ => by rw [render]; rfl
  | bool value => exact hjson.reads_of_succ fun fuel after _ _ => by cases value <;> rfl
  | natural n =>
      refine hjson.reads_of_succ fun fuel after _ hstops => ?_
      obtain ⟨c, rest, hnumeral, hdigit⟩ := numeral_head n
      rw [render, hnumeral, List.cons_append, value_number fuel _ (.inl hdigit), ← List.cons_append,
        ← hnumeral, number_numeral n hstops]
  | negative n =>
      refine hjson.reads_of_succ fun fuel after _ hstops => ?_
      rw [render, List.cons_append, value_number fuel _ (.inr rfl), number_negative n hstops]
  | string text =>
      refine hjson.reads_of_succ fun fuel after _ _ => ?_
      rw [render, renderString, List.cons_append, List.cons_append, List.append_assoc,
        List.singleton_append, value]
      change (quoted (text.toList.flatMap escaped ++ '"' :: after)).map _ = _
      rw [quoted_flatMap, String.ofList_toList]
      rfl
  | @array items h ih =>
      refine hjson.reads_of_succ fun fuel after hfuel _ => ?_
      cases items with
      | nil => rw [render]; rfl
      | cons item rest =>
          rw [render, List.cons_append, List.length_cons, List.length_append] at hfuel
          have hopens := (h item List.mem_cons_self).opens
          have hitems := items_render (fun json hjson => ih json hjson (h json hjson)) after
            (Nat.le_of_succ_le_succ hfuel)
          rw [render, List.cons_append, List.cons_append, List.append_assoc,
            value_array (hopens.append _), hitems, Option.map_some]
  | @object members hkeys h ih =>
      refine hjson.reads_of_succ fun fuel after hfuel _ => ?_
      cases members with
      | nil => rw [render]; rfl
      | cons member rest =>
          rw [render] at hfuel
          simp only [List.cons_append, List.length_cons, List.length_append] at hfuel
          have hless : (renderKey member.1).length + (render member.2).length +
              (renderMembers rest).length < fuel := by omega
          have hmembers := members_render hkeys
            (fun named hnamed => ih named hnamed (h named hnamed)) after hless
          rw [render]
          simp only [List.cons_append, List.append_assoc]
          rw [value_object (hkeys member List.mem_cons_self), hmembers, Option.map_some]

theorem parse?_render {json : Json} (h : Legible json) : parse? (render json) = some json := by
  have hvalue := h.reads ((render json).length + 1) [] (by omega) .nil
  rw [List.append_nil] at hvalue
  rw [parse?, hvalue]
  rfl

end Elementwise.Json
