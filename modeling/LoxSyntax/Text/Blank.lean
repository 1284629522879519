/-! # Blank characters

The white space of Unicode together with the information separators U+001C to U+001F
(`isBlank`), and the removal of blanks at both ends of a text (`trim`). The zero-width space,
the byte order mark and the null character are not blank. -/

namespace LoxSyntax.Text

/-- White space of every script, tabulators, line ends and information separators. -/
def isBlank (c : Char) : Bool :=
  let n := c.toNat
  (9 ≤ n && n ≤ 13) || (28 ≤ n && n ≤ 32) || n == 0x85 || n == 0xA0 || n == 0x1680 ||
    (0x2000 ≤ n && n ≤ 0x200A) || n == 0x2028 || n == 0x2029 || n == 0x202F || n == 0x205F ||
    n == 0x3000

/-- Drops the longest run of characters satisfying `p` at each end. -/
def trimBoth (p : Char → Bool) (text : List Char) : List Char :=
  ((text.dropWhile p).reverse.dropWhile p).reverse

def trim (text : String) : String :=
  .ofList (trimBoth isBlank text.toList)

end LoxSyntax.Text
