import Elementwise.Proofs.Json.Record
import Elementwise.Settings.Encoding

/-!
Settings as JSON. An object may give any of the fields, in any order and among members of other
names; the settings read from it have the given values, and the defaults for everything else.
-/

namespace Elementwise

instance : Json.LawfulLabelled LockStrategy where
  ofLabel?_label strategy := by cases strategy <;> rfl

instance : Json.LawfulLabelled BreachPolicy where
  ofLabel?_label policy := by cases policy <;> rfl

instance : Json.LawfulLabelled SpawnPolicy where
  ofLabel?_label policy := by cases policy <;> rfl

instance : Json.LawfulLabelled ThreadChoice where
  ofLabel?_label choice := by cases choice <;> rfl

/-- A string or an integer. -/
inductive Json.Plain : Json → Prop where
  | string (text : String) : Plain (string text)
  | natural (value : Nat) : Plain (natural value)
  | negative (magnitude : Nat) : Plain (numeral ('-' :: Text.numeral magnitude))

theorem Json.Plain.legible {json : Json} (h : Plain json) : Legible json := by
  cases h with
  | string text => exact .string text
  | natural value => exact .natural value
  | negative magnitude => exact .negative magnitude

namespace Settings

/-- The counts fit a word. -/
structure InWords (s : Settings) : Prop where
  workers : ∀ count ∈ s.workers, count < 2 ^ 64
  stackSize : ∀ count ∈ s.stackSize, count < 2 ^ 64

/-- The value of a field if its name is among the given ones, otherwise the default. -/
def chosen {α : Type} (names : List String) (name : String) (value default : α) : α :=
  if name ∈ names then value else default

/-- The settings that have the values of `s` in the named fields and the defaults elsewhere. -/
def given (s : Settings) (names : List String) : Settings :=
  let defaults : Settings := {}
  { workers := chosen names "workers" s.workers defaults.workers
    verifyCompletion := chosen names "verify_completion" s.verifyCompletion defaults.verifyCompletion
    lockStrategy := chosen names "lock" s.lockStrategy defaults.lockStrategy
    onBreach := chosen names "on_violation" s.onBreach defaults.onBreach
    onSpawnFailure := chosen names "on_spawn_failure" s.onSpawnFailure defaults.onSpawnFailure
    threads := chosen names "backend" s.threads defaults.threads
    threadName := chosen names "thread_name_prefix" s.threadName defaults.threadName
    stackSize := chosen names "stack_size" s.stackSize defaults.stackSize }

/-- The members of an object that gives some of the fields of `s`. -/
structure Gives (s : Settings) (members : List (String × Json)) : Prop where
  known : ∀ member ∈ members, member.1 ∈ fieldNames → member ∈ fieldNames.zip s.fieldValues
  once : ∀ name ∈ fieldNames, (members.map Prod.fst).count name ≤ 1
  unknown : ∀ member ∈ members, member.1 ∉ fieldNames → member.2.Plain

theorem nodup_fieldNames : fieldNames.Nodup := by
  decide

theorem ofCount_legible (count : Option Nat) : (ofCount count).Legible := by
  cases count with
  | none => exact .null
  | some count => exact .natural count

theorem count?_ofCount {count : Option Nat} (h : ∀ n ∈ count, n < 2 ^ 64) :
    count? (ofCount count) = some count := by
  cases count with
  | none => rfl
  | some n =>
      have hbelow : Json.below? Text.wordLimit (.natural n) = some n := Json.below?_natural (h n rfl)
      change (Json.below? Text.wordLimit (.natural n)).map some = _
      rw [hbelow, Option.map_some]

theorem legible_of_mem_fieldValues (s : Settings) : ∀ json ∈ s.fieldValues, json.Legible := by
  simp only [fieldValues, List.forall_mem_cons]
  exact ⟨ofCount_legible _, .bool _, .string _, .string _, .string _, .string _, .string _,
    ofCount_legible _, List.forall_mem_nil _⟩

variable {s : Settings} {members : List (String × Json)}

theorem Gives.legible (h : s.Gives members) : (Json.ofMembers members).Legible := by
  refine .ofMembers fun member hmember => ?_
  by_cases hname : member.1 ∈ fieldNames
  · exact s.legible_of_mem_fieldValues _ (List.of_mem_zip (h.known member hmember hname)).2
  · exact (h.unknown member hmember hname).legible

theorem Gives.lookup (h : s.Gives members) {name : String} {json : Json}
    (hfield : (name, json) ∈ fieldNames.zip s.fieldValues) (hgiven : name ∈ members.map Prod.fst) :
    members.lookup name = some json := by
  have hname := (List.of_mem_zip hfield).1
  obtain ⟨⟨key, found⟩, hmember, rfl⟩ := List.mem_map.mp hgiven
  have hknown := h.known _ hmember hname
  have honce : ((fieldNames.zip s.fieldValues).map Prod.fst).count key ≤ 1 :=
    List.nodup_iff_count_le_one.mp nodup_fieldNames key
  have hsame : found = json := Option.some.inj
    ((Json.lookup_of_mem honce hknown).symm.trans (Json.lookup_of_mem honce hfield))
  rw [Json.lookup_of_mem (h.once key hname) hmember, hsame]

theorem Gives.defaulted (h : s.Gives members) {α : Type} {decode : Json → Option α}
    {name : String} {json : Json} {value : α} (position : Nat) (default : α)
    (hposition : (fieldNames.zip s.fieldValues)[position]? = some (name, json))
    (hdecode : decode json = some value) :
    Json.defaulted decode default (members.lookup name) =
      some (chosen (members.map Prod.fst) name value default) := by
  rw [chosen]
  split
  · rename_i hgiven
    rw [h.lookup (List.mem_of_getElem? hposition) hgiven]
    exact hdecode
  · rename_i hmissing
    rw [Json.lookup_of_not_mem hmissing]
    rfl

theorem ofJson?_of_gives (hs : s.InWords) (h : s.Gives members) :
    ofJson? (.ofMembers members) = some (s.given (members.map Prod.fst)) := by
  have hrecord : (Json.ofMembers members).record? .allowed fieldNames =
      some (fieldNames.map fun name => members.lookup name) :=
    Json.record?_ofMembers (fun _ _ => rfl) h.once
  have hbool : Json.bool? (.bool s.verifyCompletion) = some s.verifyCompletion := rfl
  have hstring : Json.string? (.string s.threadName) = some s.threadName := rfl
  have hworkers := h.defaulted 0 ({} : Settings).workers rfl (count?_ofCount hs.workers)
  have hverify := h.defaulted 1 ({} : Settings).verifyCompletion rfl hbool
  have hlock :=
    h.defaulted 2 ({} : Settings).lockStrategy rfl (Json.labelled?_ofLabelled s.lockStrategy)
  have hbreach := h.defaulted 3 ({} : Settings).onBreach rfl (Json.labelled?_ofLabelled s.onBreach)
  have hspawn :=
    h.defaulted 4 ({} : Settings).onSpawnFailure rfl (Json.labelled?_ofLabelled s.onSpawnFailure)
  have hthreads := h.defaulted 5 ({} : Settings).threads rfl (Json.labelled?_ofLabelled s.threads)
  have hname := h.defaulted 6 ({} : Settings).threadName rfl hstring
  have hstack := h.defaulted 7 ({} : Settings).stackSize rfl (count?_ofCount hs.stackSize)
  rw [ofJson?, hrecord]
  simp -proj only [fieldNames, List.map_cons, List.map_nil, Option.bind_eq_bind, Option.bind_some,
    hworkers, hverify, hlock, hbreach, hspawn, hthreads, hname, hstack]
  rfl

/-- The settings that a text gives. -/
def ofText? (text : List Char) : Option Settings := (Json.parse? text).bind ofJson?

theorem ofText?_of_gives (hs : s.InWords) (h : s.Gives members) :
    ofText? (Json.render (.ofMembers members)) = some (s.given (members.map Prod.fst)) := by
  rw [ofText?, Json.parse?_render h.legible, Option.bind_some, ofJson?_of_gives hs h]

theorem gives_all (s : Settings) : s.Gives (fieldNames.zip s.fieldValues) where
  known _ hmember _ := hmember
  once name _ := List.nodup_iff_count_le_one.mp nodup_fieldNames name
  unknown _ hmember hname := absurd (List.of_mem_zip hmember).1 hname

theorem given_all (s : Settings) : s.given fieldNames = s := rfl

theorem ofText?_toJson (hs : s.InWords) : ofText? (Json.render s.toJson) = some s := by
  have hread := ofText?_of_gives hs s.gives_all
  have hnames : (fieldNames.zip s.fieldValues).map Prod.fst = fieldNames := rfl
  rw [hnames, given_all] at hread
  exact hread

end Settings

end Elementwise
