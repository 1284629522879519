/-! # Character classes of the source text

The scanner knows letters, digits and blanks of ASCII only; every other character outside of
strings and comments is unexpected. -/

namespace LoxSyntax.Character

def isDigit (c : Char) : Bool := c.isDigit

/-- A letter, with which a word begins. -/
def isLetter (c : Char) : Bool := c.isAlpha || c = '_'

def isWord (c : Char) : Bool := isLetter c || isDigit c

/-- A blank between tokens; the newline is none, since it counts lines. -/
def isBlank (c : Char) : Bool := c = ' ' || c = '\r' || c = '\t'

end LoxSyntax.Character
