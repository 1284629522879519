/-! # Lines of a text

`foldNewlines` turns every way of ending a line into a newline, as is done with a text from
outside, and `lines` cuts a text into its lines. -/

namespace LoxSyntax.Text

/-- The text with a newline for each carriage return and for each carriage return and newline in
a row. -/
def foldNewlines : List Char → List Char
  | [] => []
  | '\r' :: '\n' :: rest => '\n' :: foldNewlines rest
  | '\r' :: rest => '\n' :: foldNewlines rest
  | c :: rest => c :: foldNewlines rest

/-- The lines of a text without their newlines. A newline ends a line, so nothing follows the
last one. -/
def lines : List Char → List (List Char)
  | [] => []
  | '\n' :: rest => [] :: lines rest
  | c :: rest =>
    match lines rest with
    | [] => [[c]]
    | line :: more => (c :: line) :: more

end LoxSyntax.Text
