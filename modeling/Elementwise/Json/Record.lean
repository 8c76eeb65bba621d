import Elementwise.Json.Value
import Elementwise.Text.Label

/-!
Records and enumerations in JSON. A record is an object whose members name its fields, or an array
of the fields in order. A field may not come twice. An enumeration value is its name, or an object
with the name as its only key and null behind it.
-/

namespace Elementwise.Json

/-- What a record does with a member that names none of its fields. -/
inductive Strangers where
  | allowed
  | refused

def membersOf (field : String) (members : List (Option String × Json)) : List Json :=
  members.filterMap fun member => if member.1 = some field then some member.2 else none

def acceptable (strangers : Strangers) (fields : List String) (key : Option String) : Bool :=
  match key, strangers with
  | none, _ => false
  | some _, .allowed => true
  | some key, .refused => fields.contains key

/-- The value of a field that has at most one. -/
def single? : List Json → Option (Option Json)
  | [] => some none
  | [found] => some (some found)
  | _ => none

/-- The values of the fields of a record in the order of `fields`, with `none` for one that is
missing. -/
def record? (strangers : Strangers) (fields : List String) : Json → Option (List (Option Json))
  | object members =>
      if members.all fun member => acceptable strangers fields member.1 then
        fields.mapM fun field => single? (membersOf field members)
      else none
  | array items =>
      if items.length ≤ fields.length then
        some (items.map some ++ List.replicate (fields.length - items.length) none)
      else none
  | _ => none

def required {α : Type} (decode : Json → Option α) (found : Option Json) : Option α :=
  found.bind decode

def defaulted {α : Type} (decode : Json → Option α) (default : α) : Option Json → Option α
  | none => some default
  | some found => decode found

def labelled? (α : Type) [Labelled α] : Json → Option α
  | string text => Labelled.ofLabel? α text
  | object [(some key, null)] => Labelled.ofLabel? α key
  | _ => none

def ofLabelled {α : Type} [Labelled α] (value : α) : Json := string (Labelled.label value)

end Elementwise.Json
