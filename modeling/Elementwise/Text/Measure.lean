import Elementwise.Report.Basic

/-!
Text for measured quantities: a span of time in the largest unit that it fills, and a number with a
fixed count of decimal places.
-/

namespace Elementwise.Text

/-- The digits of a fraction with denominator `scale * 10`, without zeros at the end. -/
def fractionDigits (scale part : Nat) : List Char :=
  match scale with
  | 0 => []
  | scale + 1 =>
      if part = 0 then []
      else Char.ofNat ('0'.toNat + part / (scale + 1)) ::
        fractionDigits ((scale + 1) / 10) (part % (scale + 1))
termination_by scale
decreasing_by omega

def withFraction (whole scale part : Nat) : String :=
  match fractionDigits scale part with
  | [] => toString whole
  | digits => toString whole ++ "." ++ String.ofList digits

/-- A span of time in seconds, milliseconds, microseconds or nanoseconds. -/
def elapsed (e : Elapsed) : String :=
  let n := e.nanoseconds
  if 0 < e.seconds then withFraction e.seconds 100000000 n ++ "s"
  else if 1000000 ≤ n then withFraction (n / 1000000) 100000 (n % 1000000) ++ "ms"
  else if 1000 ≤ n then withFraction (n / 1000) 100 (n % 1000) ++ "µs"
  else toString n ++ "ns"

/-- The quotient rounded to the nearest number, to the even one if two are equally near. -/
def roundedQuotient (numerator denominator : Nat) : Nat :=
  let quotient := numerator / denominator
  let twice := 2 * (numerator % denominator)
  if twice < denominator then quotient
  else if denominator < twice then quotient + 1
  else quotient + quotient % 2

/-- A finite number that is not negative, with two decimal places. -/
def twoPlaces (x : Float) : String :=
  let bits := x.toBits.toNat
  let exponent := (bits >>> 52) % (1 <<< 11)
  let fraction := bits % (1 <<< 52)
  let significand := if exponent = 0 then fraction else fraction + (1 <<< 52)
  let hundredths := roundedQuotient ((significand * 100) <<< max exponent 1) (1 <<< 1075)
  let places := toString (hundredths % 100)
  toString (hundredths / 100) ++ "." ++ (if places.length < 2 then "0" ++ places else places)

end Elementwise.Text
