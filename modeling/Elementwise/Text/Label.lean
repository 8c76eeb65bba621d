/-!
Enumerations whose values are written by a name of their own.
-/

namespace Elementwise

/-- A finite type whose values have names. -/
class Labelled (α : Type) where
  values : List α
  label : α → String

namespace Labelled

def ofLabel? (α : Type) [Labelled α] (text : String) : Option α :=
  (values : List α).find? fun value => label value == text

end Labelled

end Elementwise
