import Elementwise.Json.Record
import Elementwise.Proofs.Json.Reading
import Mathlib.Data.List.Nodup

/-!
Records. The fields of an object are found by name, wherever they stand and whatever stands between
them, and a field that is missing is seen to be missing.
-/

namespace Elementwise.Json

/-- Names are read back as the values that have them. -/
class LawfulLabelled (α : Type) [Labelled α] : Prop where
  ofLabel?_label : ∀ value : α, Labelled.ofLabel? α (Labelled.label value) = some value

theorem labelled?_ofLabelled {α : Type} [Labelled α] [LawfulLabelled α] (value : α) :
    labelled? α (ofLabelled value) = some value :=
  LawfulLabelled.ofLabel?_label value

theorem below?_natural {limit value : Nat} (h : value < limit) :
    below? limit (natural value) = some value :=
  if_pos h

theorem mapM_eq_some_map {α β : Type} {f : α → Option β} {g : α → β} {xs : List α}
    (h : ∀ x ∈ xs, f x = some (g x)) : xs.mapM f = some (xs.map g) := by
  induction xs with
  | nil => rfl
  | cons x xs ih =>
      rw [List.mapM_cons, h x List.mem_cons_self, ih fun y hy => h y (List.mem_cons_of_mem _ hy)]
      rfl

theorem exists_of_mapM_eq_some {α β : Type} {f : α → Option β} {xs : List α} {ys : List β}
    (h : xs.mapM f = some ys) {x : α} (hx : x ∈ xs) : ∃ y ∈ ys, f x = some y := by
  induction xs generalizing ys with
  | nil => cases hx
  | cons first rest ih =>
      simp only [List.mapM_cons, Option.bind_eq_bind, Option.pure_def, Option.bind_eq_some_iff,
        Option.some.injEq] at h
      obtain ⟨y, hy, ys, hys, rfl⟩ := h
      rcases List.mem_cons.mp hx with rfl | hx
      · exact ⟨y, List.mem_cons_self, hy⟩
      · obtain ⟨z, hz, hfound⟩ := ih hys hx
        exact ⟨z, List.mem_cons_of_mem _ hz, hfound⟩

theorem list?_map {α : Type} {decode : Json → Option α} {encode : α → Json} {values : List α}
    (h : ∀ value ∈ values, decode (encode value) = some value) :
    list? decode (array (values.map encode)) = some values := by
  change (values.map encode).mapM decode = some values
  have hmap : values.mapM (decode ∘ encode) = some (values.map id) := mapM_eq_some_map h
  rw [List.mapM_map, hmap, List.map_id]

theorem exists_of_list?_eq_some {α : Type} {decode : Json → Option α} {items : List Json}
    {values : List α} (h : list? decode (array items) = some values) {item : Json}
    (hitem : item ∈ items) : ∃ value, decode item = some value := by
  obtain ⟨value, -, hvalue⟩ := exists_of_mapM_eq_some h hitem
  exact ⟨value, hvalue⟩

section Members

variable {members : List (String × Json)} {field : String}

theorem lookup_of_mem (honce : (members.map Prod.fst).count field ≤ 1) {item : Json}
    (h : (field, item) ∈ members) : members.lookup field = some item := by
  induction members with
  | nil => cases h
  | cons member rest ih =>
      obtain ⟨key, first⟩ := member
      rw [List.map_cons, List.count_cons] at honce
      rcases List.mem_cons.mp h with heq | hrest
      · cases heq
        exact List.lookup_cons_self
      · have hcount : 0 < (rest.map Prod.fst).count field :=
          List.count_pos_iff.mpr (List.mem_map_of_mem hrest)
        have hkey : (field == key) = false := by
          rw [beq_eq_false_iff_ne]
          rintro rfl
          rw [beq_self_eq_true, if_pos rfl] at honce
          omega
        rw [List.lookup_cons, hkey]
        exact ih (by omega) hrest

theorem lookup_of_not_mem (h : field ∉ members.map Prod.fst) : members.lookup field = none := by
  rw [List.lookup_eq_none_iff]
  intro member hmember
  rw [bne_iff_ne]
  rintro rfl
  exact h (List.mem_map_of_mem hmember)

theorem membersOf_eq_nil {members : List (Option String × Json)}
    (h : ∀ member ∈ members, member.1 ≠ some field) : membersOf field members = [] := by
  rw [membersOf, List.filterMap_eq_nil_iff]
  intro member hmember
  exact if_neg (h member hmember)

theorem single?_membersOf (honce : (members.map Prod.fst).count field ≤ 1) :
    single? (membersOf field (members.map fun member => (some member.1, member.2))) =
      some (members.lookup field) := by
  induction members with
  | nil => rfl
  | cons member rest ih =>
      obtain ⟨key, item⟩ := member
      rw [List.map_cons, List.count_cons] at honce
      rw [List.map_cons, membersOf, List.filterMap_cons, ← membersOf, List.lookup_cons]
      by_cases hkey : key = field
      · subst hkey
        rw [beq_self_eq_true, if_pos rfl] at honce
        have hrest : ∀ member ∈ rest.map fun member => (some member.1, member.2),
            member.1 ≠ some key := by
          intro member hmember heq
          obtain ⟨named, hnamed, rfl⟩ := List.mem_map.mp hmember
          have hpos := List.count_pos_iff.mpr (List.mem_map_of_mem (f := Prod.fst) hnamed)
          rw [Option.some.inj heq] at hpos
          omega
        rw [membersOf_eq_nil hrest, if_pos rfl, beq_self_eq_true]
        rfl
      · rw [if_neg fun h => hkey (Option.some.inj h), beq_eq_false_iff_ne.mpr (Ne.symm hkey)]
        exact ih (by omega)

/-- Every field comes at most once, so each is found under its name or seen to be missing. -/
theorem record?_ofMembers {strangers : Strangers} {fields : List String}
    (haccept : ∀ member ∈ members, acceptable strangers fields (some member.1) = true)
    (honce : ∀ field ∈ fields, (members.map Prod.fst).count field ≤ 1) :
    (ofMembers members).record? strangers fields =
      some (fields.map fun field => members.lookup field) := by
  rw [ofMembers, record?, if_pos, mapM_eq_some_map fun field hfield =>
    single?_membersOf (honce field hfield)]
  rw [List.all_map, List.all_eq_true]
  exact haccept

/-- An object that has all fields in their order, as a record is written. -/
theorem record?_zip {strangers : Strangers} {fields : List String} {values : List Json}
    (hnodup : fields.Nodup) (hlength : fields.length = values.length) :
    (ofMembers (fields.zip values)).record? strangers fields = some (values.map some) := by
  have hkeys : (fields.zip values).map Prod.fst = fields := List.map_fst_zip hlength.le
  have honce : ∀ field, ((fields.zip values).map Prod.fst).count field ≤ 1 := by
    rw [hkeys]
    exact List.nodup_iff_count_le_one.mp hnodup
  rw [record?_ofMembers _ fun field _ => honce field]
  · congr 1
    refine List.ext_getElem (by simp [hlength]) fun i hfields hvalues => ?_
    rw [List.length_map] at hfields hvalues
    have hmem : (fields[i], values[i]) ∈ fields.zip values :=
      List.mem_iff_getElem.mpr ⟨i, by rw [List.length_zip]; omega, List.getElem_zip⟩
    rw [List.getElem_map, List.getElem_map, lookup_of_mem (honce _) hmem]
  · intro member hmember
    have hfield : member.1 ∈ fields := (List.of_mem_zip hmember).1
    cases strangers with
    | allowed => rfl
    | refused => exact List.contains_iff_mem.mpr hfield

/-- A record gives nothing for a field that its object lacks. -/
theorem none_mem_of_record? {members : List (Option String × Json)} {strangers : Strangers}
    {fields : List String} {found : List (Option Json)}
    (h : (object members).record? strangers fields = some found) (hfield : field ∈ fields)
    (hmissing : ∀ member ∈ members, member.1 ≠ some field) : none ∈ found := by
  rw [record?] at h
  split at h
  · obtain ⟨entry, hentry, hsingle⟩ := exists_of_mapM_eq_some h hfield
    rw [membersOf_eq_nil hmissing] at hsingle
    cases hsingle
    exact hentry
  · cases h

end Members

/-- An object without its members of a name. -/
def without (name : String) : Json → Json
  | object members => object (members.filter fun member => member.1 ≠ some name)
  | other => other

/-- What cannot be read but from a record with all its fields cannot be read without one of them. -/
theorem eq_none_of_without {α : Type} {decode : Json → Option α} (strangers : Strangers)
    {fields : List String} (hneeds : ∀ {json value}, decode json = some value →
      ∃ values : List Json, json.record? strangers fields = some (values.map some))
    {name : String} (hname : name ∈ fields) (members : List (String × Json)) :
    decode ((ofMembers members).without name) = none := by
  rw [Option.eq_none_iff_forall_ne_some]
  intro value hvalue
  obtain ⟨values, hrecord⟩ := hneeds hvalue
  have hmissing : ∀ member ∈ (members.map fun member => (some member.1, member.2)).filter
      fun member => member.1 ≠ some name, member.1 ≠ some name := fun member hmember =>
    of_decide_eq_true (List.mem_filter.mp hmember).2
  have hnone := none_mem_of_record? hrecord hname hmissing
  obtain ⟨item, -, hitem⟩ := List.mem_map.mp hnone
  cases hitem

/-- An object with the values of a name replaced by what `edit` makes of them. -/
def within (name : String) (edit : Json → Json) : Json → Json
  | object members => object (members.map fun member =>
      if member.1 = some name then (member.1, edit member.2) else member)
  | other => other

/-- An array with one of its items replaced by what `edit` makes of it. -/
def onItem (position : Nat) (edit : Json → Json) : Json → Json
  | array items => array (items.modify position edit)
  | other => other

theorem Legible.without {json : Json} (h : Legible json) (name : String) :
    Legible (json.without name) := by
  cases json with
  | object members =>
      cases h with
      | object hkeys hitems =>
          refine .object (fun member hmember => ?_) fun member hmember => ?_
          · exact hkeys member (List.mem_filter.mp hmember).1
          · exact hitems member (List.mem_filter.mp hmember).1
  | _ => exact h

theorem Legible.within {json : Json} (h : Legible json) (name : String) {edit : Json → Json}
    (hedit : ∀ {item}, Legible item → Legible (edit item)) : Legible (json.within name edit) := by
  cases json with
  | object members =>
      cases h with
      | object hkeys hitems =>
          refine .object (fun member hmember => ?_) fun member hmember => ?_
          · obtain ⟨former, hformer, rfl⟩ := List.mem_map.mp hmember
            split <;> exact hkeys former hformer
          · obtain ⟨former, hformer, rfl⟩ := List.mem_map.mp hmember
            split
            · exact hedit (hitems former hformer)
            · exact hitems former hformer
  | _ => exact h

theorem Legible.onItem {json : Json} (h : Legible json) (position : Nat) {edit : Json → Json}
    (hedit : ∀ {item}, Legible item → Legible (edit item)) :
    Legible (json.onItem position edit) := by
  cases json with
  | array items =>
      cases h with
      | array hitems =>
          refine .array fun item hitem => ?_
          obtain ⟨i, hi⟩ := List.mem_iff_getElem?.mp hitem
          rw [List.getElem?_modify] at hi
          obtain ⟨former, hformer, rfl⟩ := Option.map_eq_some_iff.mp hi
          have hlegible := hitems former (List.mem_of_getElem? hformer)
          split
          · exact hedit hlegible
          · exact hlegible
  | _ => exact h

end Elementwise.Json
