import Elementwise.Json.Value
import Elementwise.Text.Numeral

/-!
Reading strict JSON text. Every reader takes the characters in front of it and returns what it read
with the characters after it. Nothing is allowed besides the grammar: no trailing comma, no leading
zero, no control character inside a string.
-/

namespace Elementwise.Json

open Text

/-- What a reader found, and the characters behind it. -/
abbrev Read (α : Type) := Option (α × List Char)

def isSpace (c : Char) : Bool := c == ' ' || c == '\t' || c == '\n' || c == '\r'

def skipSpace (text : List Char) : List Char := text.dropWhile isSpace

def hexValue? (c : Char) : Option Nat :=
  if '0' ≤ c ∧ c ≤ '9' then some (c.toNat - '0'.toNat)
  else if 'a' ≤ c ∧ c ≤ 'f' then some (c.toNat - 'a'.toNat + 10)
  else if 'A' ≤ c ∧ c ≤ 'F' then some (c.toNat - 'A'.toNat + 10)
  else none

def hexValue4? (a b c d : Char) : Option Nat := do
  return (((← hexValue? a) * 16 + (← hexValue? b)) * 16 + (← hexValue? c)) * 16 + (← hexValue? d)

/-- A piece of a string: a character, or a code unit written in hexadecimal. -/
inductive Piece where
  | char (c : Char)
  | code (unit : Nat)

def escape? : Char → Option Char
  | '"' => some '"'
  | '\\' => some '\\'
  | '/' => some '/'
  | 'b' => some '\x08'
  | 'f' => some '\x0c'
  | 'n' => some '\n'
  | 'r' => some '\r'
  | 't' => some '\t'
  | _ => none

/-- Reads the pieces of a string up to and with its closing quote. -/
def pieces : List Char → Read (List Piece)
  | [] => none
  | '"' :: rest => some ([], rest)
  | '\\' :: 'u' :: a :: b :: c :: d :: rest =>
      match hexValue4? a b c d with
      | none => none
      | some unit => (pieces rest).map fun (tail, after) => (.code unit :: tail, after)
  | '\\' :: c :: rest =>
      match escape? c with
      | none => none
      | some meant => (pieces rest).map fun (tail, after) => (.char meant :: tail, after)
  | c :: rest =>
      if c.toNat < 0x20 ∨ c = '\\' then none
      else (pieces rest).map fun (tail, after) => (.char c :: tail, after)

/-- The text that pieces stand for. A leading surrogate and the trailing surrogate behind it form
one character; a surrogate without its partner has no meaning. -/
def assemble : List Piece → Option (List Char)
  | [] => some []
  | .char c :: rest => (assemble rest).map (c :: ·)
  | .code high :: .code low :: rest =>
      if 0xd800 ≤ high ∧ high < 0xdc00 then
        if 0xdc00 ≤ low ∧ low < 0xe000 then
          (assemble rest).map (Char.ofNat (0x10000 + (high - 0xd800) * 0x400 + (low - 0xdc00)) :: ·)
        else none
      else if 0xdc00 ≤ high ∧ high < 0xe000 then none
      else (assemble (.code low :: rest)).map (Char.ofNat high :: ·)
  | .code unit :: rest =>
      if 0xd800 ≤ unit ∧ unit < 0xe000 then none else (assemble rest).map (Char.ofNat unit :: ·)

/-- Reads the text of a string behind its opening quote. -/
def quoted (text : List Char) : Read (Option String) :=
  (pieces text).map fun (found, after) => ((assemble found).map String.ofList, after)

def spanDigits (text : List Char) : List Char × List Char := text.span Char.isDigit

/-- The part of a numeral before point and exponent: a single zero, or digits without a leading
zero. -/
def integerPart : List Char → Read (List Char)
  | '0' :: rest => some (['0'], rest)
  | text =>
      match spanDigits text with
      | ([], _) => none
      | (digits, rest) => some (digits, rest)

/-- A point with at least one digit behind it, or nothing. -/
def fractionPart : List Char → Read (List Char)
  | '.' :: text =>
      match spanDigits text with
      | ([], _) => none
      | (digits, rest) => some ('.' :: digits, rest)
  | text => some ([], text)

def exponentSign : List Char → List Char × List Char
  | '+' :: rest => (['+'], rest)
  | '-' :: rest => (['-'], rest)
  | text => ([], text)

def exponentPart : List Char → Read (List Char)
  | [] => some ([], [])
  | mark :: text =>
      if mark = 'e' ∨ mark = 'E' then
        let (sign, rest) := exponentSign text
        match spanDigits rest with
        | ([], _) => none
        | (digits, rest) => some (mark :: sign ++ digits, rest)
      else some ([], mark :: text)

def unsigned (text : List Char) : Option (Json × List Char) := do
  let (whole, rest) ← integerPart text
  let (fraction, rest) ← fractionPart rest
  let (exponent, rest) ← exponentPart rest
  match fraction ++ exponent with
  | [] => return (natural (digitsValue whole), rest)
  | tail => return (numeral (whole ++ tail), rest)

/-- Reads a numeral. One with a minus sign is never a natural number. -/
def number : List Char → Read Json
  | '-' :: text =>
      (unsigned text).map fun
        | (natural value, rest) => (numeral ('-' :: Text.numeral value), rest)
        | (numeral characters, rest) => (numeral ('-' :: characters), rest)
        | other => other
  | text => unsigned text

mutual

/-- Reads a value. `fuel` bounds the depth and the number of values that can still be read. -/
def value : Nat → List Char → Read Json
  | 0, _ => none
  | fuel + 1, text =>
      match skipSpace text with
      | '\x7b' :: rest =>
          match skipSpace rest with
          | '\x7d' :: rest => some (object [], rest)
          | rest => (members fuel rest).map fun (found, after) => (object found, after)
      | '[' :: rest =>
          match skipSpace rest with
          | ']' :: rest => some (array [], rest)
          | rest => (items fuel rest).map fun (found, after) => (array found, after)
      | '"' :: rest =>
          (quoted rest).map fun
            | (some text, after) => (string text, after)
            | (none, after) => (unpaired, after)
      | 't' :: 'r' :: 'u' :: 'e' :: rest => some (bool true, rest)
      | 'f' :: 'a' :: 'l' :: 's' :: 'e' :: rest => some (bool false, rest)
      | 'n' :: 'u' :: 'l' :: 'l' :: rest => some (null, rest)
      | rest => number rest

def items : Nat → List Char → Read (List Json)
  | 0, _ => none
  | fuel + 1, text =>
      match value fuel text with
      | none => none
      | some (item, rest) =>
          match skipSpace rest with
          | ',' :: rest => (items fuel rest).map fun (tail, after) => (item :: tail, after)
          | ']' :: rest => some ([item], rest)
          | _ => none

def members : Nat → List Char → Read (List (Option String × Json))
  | 0, _ => none
  | fuel + 1, text =>
      match skipSpace text with
      | '"' :: rest =>
          match quoted rest with
          | none => none
          | some (key, rest) =>
              match skipSpace rest with
              | ':' :: rest =>
                  match value fuel rest with
                  | none => none
                  | some (item, rest) =>
                      match skipSpace rest with
                      | ',' :: rest =>
                          (members fuel rest).map fun (tail, after) => ((key, item) :: tail, after)
                      | '\x7d' :: rest => some ([(key, item)], rest)
                      | _ => none
              | _ => none
      | _ => none

end

/-- Reads a whole text. Every value takes at least one character, so a bound of one more than the
length is never reached. -/
def parse? (text : List Char) : Option Json :=
  match value (text.length + 1) text with
  | some (found, rest) => if skipSpace rest = [] then some found else none
  | none => none

end Elementwise.Json
