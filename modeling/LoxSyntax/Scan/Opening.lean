import LoxSyntax.Token.Character
import LoxSyntax.Token.Kind

/-! # What a character opens

The first character of a piece of source text decides what kind of piece it is: `Opening.of` is
total, and the characters that no piece begins with open nothing. -/

namespace LoxSyntax

inductive Opening
  /-- A token of one character. -/
  | punctuation (kind : Kind)
  /-- A token of one character, or of two if `=` follows. -/
  | operator (alone withEqual : Kind)
  /-- A comment, if a slash follows, or else a token of one character. -/
  | slash
  | blank
  | newline
  | string
  | number
  | word
  | nothing
  deriving DecidableEq

def Opening.of (c : Char) : Opening :=
  match Kind.ofPunctuation? c, Kind.ofOperator? c with
  | some kind, _ => punctuation kind
  | none, some (alone, withEqual) => operator alone withEqual
  | none, none =>
    if c = '/' then slash
    else if Character.isBlank c then blank
    else if c = '\n' then newline
    else if c = '"' then string
    else if Character.isDigit c then number
    else if Character.isLetter c then word
    else nothing

end LoxSyntax
