/-!
Values of JSON text. Numbers are kept apart by form: a plain row of digits is a natural number, any
other numeral keeps its characters. A string whose escapes leave a surrogate without its partner
stands for no text; it may be passed over but not read.
-/

namespace Elementwise

/-- A JSON value. Members of an object keep their order and may repeat a key. -/
inductive Json where
  | null
  | bool (value : Bool)
  | natural (value : Nat)
  | numeral (characters : List Char)
  | string (text : String)
  | unpaired
  | array (items : List Json)
  | object (members : List (Option String × Json))

namespace Json

instance : Inhabited Json := ⟨null⟩

def bool? : Json → Option Bool
  | bool value => some value
  | _ => none

def string? : Json → Option String
  | string text => some text
  | _ => none

def array? : Json → Option (List Json)
  | array items => some items
  | _ => none

def below? (limit : Nat) : Json → Option Nat
  | natural value => if value < limit then some value else none
  | _ => none

/-- A value that may be absent, written as null. -/
def optional? {α : Type} (decode : Json → Option α) : Json → Option (Option α)
  | null => some none
  | value => (decode value).map some

def list? {α : Type} (decode : Json → Option α) (value : Json) : Option (List α) :=
  value.array?.bind fun items => items.mapM decode

def ofMembers (members : List (String × Json)) : Json :=
  object (members.map fun member => (some member.1, member.2))

end Json

end Elementwise
