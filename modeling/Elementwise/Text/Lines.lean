/-!
The lines of a text.
-/

namespace Elementwise.Text

/-- The lines of a text. A line feed ends a line, and a carriage return right in front of it belongs
to the end too. Characters behind the last line feed are one more line, as they stand. -/
def lines : List Char → List (List Char)
  | [] => []
  | '\n' :: rest => [] :: lines rest
  | '\r' :: '\n' :: rest => [] :: lines rest
  | c :: rest =>
      match lines rest with
      | [] => [[c]]
      | line :: others => (c :: line) :: others

end Elementwise.Text
