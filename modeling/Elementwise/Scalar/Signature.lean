import Elementwise.Scalar.Type

/-!
What a kernel takes and produces: the types of its inputs in argument order and the type of its
result. Foreign callers pass it as a list of codes with the result last.
-/

namespace Elementwise

/-- The input types of a kernel in argument order, and the type of its result. -/
structure Signature where
  inputs : List ScalarType
  output : ScalarType
deriving DecidableEq, Repr, Inhabited

namespace Signature

def arity (s : Signature) : Nat := s.inputs.length

/-- The codes of the inputs followed by the code of the output. -/
def codes (s : Signature) : List UInt8 := (s.inputs ++ [s.output]).map ScalarType.code

def ofTypes? (types : List ScalarType) : Option Signature :=
  match types.reverse with
  | output :: input :: rest => some ⟨(input :: rest).reverse, output⟩
  | _ => none

/-- Reads codes laid out as `inputs..., output`. Every code has to be known and there has to be at
least one input. -/
def ofCodes? (codes : List UInt8) : Option Signature :=
  (codes.mapM ScalarType.ofCode?).bind ofTypes?

/-- The shown form, such as `(f64, i32) -> f64`. -/
def text (s : Signature) : String :=
  "(" ++ ", ".intercalate (s.inputs.map ScalarType.name) ++ ") -> " ++ s.output.name

end Signature

end Elementwise
