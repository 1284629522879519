import LoxSyntax.Text.Unprintable

/-! # Quoted text

`quote` writes a text between quotation marks so that it can be read back: the mark in use and the
backslash are escaped, line ends and tabulators have short escapes, and every other unprintable
character is written as a hexadecimal escape of the least width. The mark is the apostrophe, or
the double quotation mark for a text with an apostrophe and without a double quotation mark. -/

namespace LoxSyntax.Text

/-- The last `width` hexadecimal digits of a number, in lower case. -/
def hexDigits : (width : Nat) → Nat → List Char
  | 0, _ => []
  | width + 1, n => hexDigits width (n / 16) ++ [Nat.digitChar (n % 16)]

/-- The hexadecimal escape of a character, with two, four or eight digits. -/
def hexEscape (c : Char) : List Char :=
  let n := c.toNat
  if n < 0x100 then '\\' :: 'x' :: hexDigits 2 n
  else if n < 0x10000 then '\\' :: 'u' :: hexDigits 4 n
  else '\\' :: 'U' :: hexDigits 8 n

/-- How a character is written between two marks. -/
def quoteChar (mark c : Char) : List Char :=
  if c = mark || c = '\\' then ['\\', c]
  else if c = '\n' then ['\\', 'n']
  else if c = '\r' then ['\\', 'r']
  else if c = '\t' then ['\\', 't']
  else if isPrintable c then [c]
  else hexEscape c

def quoteMark (text : List Char) : Char :=
  if text.contains '\'' && !text.contains '"' then '"' else '\''

def quote (text : String) : String :=
  let mark := quoteMark text.toList
  .ofList (mark :: (text.toList.flatMap (quoteChar mark) ++ [mark]))

end LoxSyntax.Text
