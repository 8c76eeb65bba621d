import Elementwise.Json.Value
import Elementwise.Text.Numeral

/-!
Writing JSON text without blanks. Quotes, backslashes and control characters are escaped, every
other character stands for itself.
-/

namespace Elementwise.Json

def hexChar (digit : Nat) : Char :=
  if digit < 10 then Char.ofNat ('0'.toNat + digit) else Char.ofNat ('a'.toNat + (digit - 10))

def escaped (c : Char) : List Char :=
  if c = '"' then ['\\', '"']
  else if c = '\\' then ['\\', '\\']
  else if c = '\x08' then ['\\', 'b']
  else if c = '\x0c' then ['\\', 'f']
  else if c = '\n' then ['\\', 'n']
  else if c = '\r' then ['\\', 'r']
  else if c = '\t' then ['\\', 't']
  else if c.toNat < 0x20 then
    ['\\', 'u', '0', '0', hexChar (c.toNat / 16), hexChar (c.toNat % 16)]
  else [c]

def renderString (text : List Char) : List Char := '"' :: text.flatMap escaped ++ ['"']

/-- The text of a string that lacks the partner of a surrogate. -/
def renderUnpaired : List Char := "\"\\ud800\"".toList

def renderKey : Option String → List Char
  | some key => renderString key.toList
  | none => renderUnpaired

mutual

def render : Json → List Char
  | null => "null".toList
  | bool true => "true".toList
  | bool false => "false".toList
  | natural value => Text.numeral value
  | numeral characters => characters
  | string text => renderString text.toList
  | unpaired => renderUnpaired
  | array [] => ['[', ']']
  | array (item :: rest) => '[' :: render item ++ renderItems rest
  | object [] => ['\x7b', '\x7d']
  | object ((key, item) :: rest) =>
      '\x7b' :: renderKey key ++ ':' :: render item ++ renderMembers rest

/-- The items behind the first one, and the closing bracket. -/
def renderItems : List Json → List Char
  | [] => [']']
  | item :: rest => ',' :: render item ++ renderItems rest

def renderMembers : List (Option String × Json) → List Char
  | [] => ['\x7d']
  | (key, item) :: rest => ',' :: renderKey key ++ ':' :: render item ++ renderMembers rest

end

end Elementwise.Json
