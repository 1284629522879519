import LoxSyntax.Literal
import LoxSyntax.Token.Kind

/-! # Tokens

A `Token` is a piece of the source text with its kind, its value and the line on which it ends.
Lines are integers without bounds, since tokens may also be made by hand. -/

namespace LoxSyntax

structure Token where
  kind : Kind
  /-- The piece of the source that the token is. -/
  lexeme : String
  literal : Literal
  /-- The line on which the lexeme ends. -/
  line : Int
  deriving DecidableEq, Inhabited

namespace Token

/-- A token marks the end of a token list. -/
def isEnd (t : Token) : Bool := t.kind = .eof

/-- Equality by value, with constants compared by `Literal.equals`. -/
def equals (a b : Token) : Bool :=
  a.kind = b.kind && a.lexeme = b.lexeme && a.literal.equals b.literal && a.line = b.line

/-- Kind, lexeme and value, as tokens are listed. -/
def text (t : Token) : String :=
  t.kind.name ++ " " ++ t.lexeme ++ " " ++ t.literal.tokenText

/-- A text from which the token can be read back. -/
def description (t : Token) : String :=
  "Token(" ++ t.kind.name ++ ", " ++ Text.quote t.lexeme ++ ", " ++ t.literal.description ++
    ", line=" ++ toString t.line ++ ")"

end Token

end LoxSyntax
