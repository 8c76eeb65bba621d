import Elementwise.Kernel.Basic
import Elementwise.Scalar.Arithmetic

/-!
A catalogue of kernels, found by name: seven formulas over each element type, written as
`formula:type`, conversions written as `source_to_target`, and three formulas over mixed types.
-/

namespace Elementwise

/-- A formula over arguments of one type. -/
inductive Formula where
  | neg
  | sq
  | add
  | sub
  | mul
  | muladd
  | lin4
deriving DecidableEq, Repr

namespace Formula

def all : List Formula := [neg, sq, add, sub, mul, muladd, lin4]

def name : Formula → String
  | neg => "neg"
  | sq => "sq"
  | add => "add"
  | sub => "sub"
  | mul => "mul"
  | muladd => "muladd"
  | lin4 => "lin4"

def arity : Formula → Nat
  | neg | sq => 1
  | add | sub | mul => 2
  | muladd => 3
  | lin4 => 4

/-- The value of a formula. Operations are applied from left to right, each rounded or wrapped on
its own; `constant` gives the small factors in the element type. -/
def eval (ops : Arithmetic) (constant : Nat → UInt64) : Formula → List UInt64 → UInt64
  | neg, [a] => ops.neg a
  | sq, [a] => ops.mul a a
  | add, [a, b] => ops.add a b
  | sub, [a, b] => ops.sub a b
  | mul, [a, b] => ops.mul a b
  | muladd, [a, b, c] => ops.add (ops.mul a b) c
  | lin4, [a, b, c, d] =>
      ops.add (ops.add (ops.add a (ops.mul b (constant 2))) (ops.mul c (constant 3)))
        (ops.mul d (constant 4))
  | _, _ => 0

end Formula

namespace Kernel

def ofFormula (formula : Formula) (t : ScalarType) : Kernel where
  signature := ⟨List.replicate formula.arity t, t⟩
  eval := formula.eval (.of t) fun n => t.ofInt64 (Int64.ofNat n)

def conversion (source target : ScalarType) : Kernel where
  signature := ⟨[source], target⟩
  eval
    | [x] => source.convert target x
    | _ => 0

def conversions : List (ScalarType × ScalarType) :=
  [(.int8, .float64), (.float64, .int32), (.float32, .int8), (.int64, .float64),
    (.int64, .float32), (.float64, .float32), (.float32, .float64), (.int64, .int8),
    (.int32, .float64)]

/-- An integer, converted to single precision, times a factor. -/
def scale : Kernel where
  signature := ⟨[.int32, .float32], .float32⟩
  eval
    | [x, factor] =>
        (Arithmetic.of .float32).mul (ScalarType.convert .int32 .float32 x) factor
    | _ => 0

/-- A short integer, widened, minus a long one. -/
def wideSub : Kernel where
  signature := ⟨[.int16, .int64], .int64⟩
  eval
    | [a, b] => (Arithmetic.of .int64).sub (ScalarType.convert .int16 .int64 a) b
    | _ => 0

/-- The sum of four numbers of different types in double precision. -/
def mixedSum : Kernel where
  signature := ⟨[.float64, .int64, .float32, .int8], .float64⟩
  eval
    | [a, b, c, d] =>
        let ops := Arithmetic.of .float64
        ops.add (ops.add (ops.add a (ScalarType.toDouble .int64 b)) (ScalarType.toDouble .float32 c))
          (ScalarType.toDouble .int8 d)
    | _ => 0

def catalogue : List (String × Kernel) :=
  (Formula.all.flatMap fun formula => ScalarType.all.map fun t =>
    (formula.name ++ ":" ++ t.label, ofFormula formula t)) ++
  (conversions.map fun (source, target) =>
    (source.name ++ "_to_" ++ target.name, conversion source target)) ++
  [("scale_i32_f32", scale), ("sub_i16_i64", wideSub), ("mix4", mixedSum)]

def named? (name : String) : Option Kernel := catalogue.lookup name

end Kernel

end Elementwise
