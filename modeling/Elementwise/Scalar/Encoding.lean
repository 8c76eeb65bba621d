import Elementwise.Json.Record
import Elementwise.Scalar.Signature

/-!
Element types and signatures in JSON: a type is its label, a signature a record of both sides.
-/

namespace Elementwise

instance : Labelled ScalarType where
  values := ScalarType.all
  label := ScalarType.label

namespace Signature

def fieldNames : List String := ["inputs", "output"]

def toJson (s : Signature) : Json :=
  .ofMembers (fieldNames.zip [.array (s.inputs.map .ofLabelled), .ofLabelled s.output])

def ofJson? (json : Json) : Option Signature := do
  match ← json.record? .allowed fieldNames with
  | [inputs, output] =>
      return {
        inputs := ← Json.required (Json.list? (Json.labelled? ScalarType)) inputs
        output := ← Json.required (Json.labelled? ScalarType) output }
  | _ => none

end Signature

end Elementwise
