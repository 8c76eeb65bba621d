/-!
Decimal numerals over the digits `0` to `9`.
-/

namespace Elementwise.Text

def digitChar (digit : Nat) : Char := Char.ofNat ('0'.toNat + digit)

def digitValue (c : Char) : Nat := c.toNat - '0'.toNat

def numeral (n : Nat) : List Char :=
  if n < 10 then [digitChar n] else numeral (n / 10) ++ [digitChar (n % 10)]

def digitsValue (digits : List Char) : Nat :=
  digits.foldl (fun value c => 10 * value + digitValue c) 0

/-- Reads one or more digits. Leading zeros do not matter. -/
def natural? (text : List Char) : Option Nat :=
  if text ≠ [] ∧ text.all Char.isDigit then some (digitsValue text) else none

def wordLimit : Nat := UInt64.size

/-- Reads a word: an optional plus sign and digits of a value below `2 ^ 64`. -/
def word? (text : List Char) : Option Nat :=
  let digits := match text with
    | '+' :: rest => rest
    | _ => text
  (natural? digits).filter (· < wordLimit)

end Elementwise.Text
