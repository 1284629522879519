import LoxSyntax.Number.Layout
import LoxSyntax.Text.Quoted

/-! # Constants

A `Literal` is the value that a token or a leaf of an expression carries: nothing, a truth value,
a number or a text. `Literal.equals` compares values, the truth values counting as the numbers one
and zero; the three texts of a constant serve the list of tokens, the prefix text of an
expression, and a description that tells all constants apart. -/

namespace LoxSyntax

inductive Literal
  | nil
  | bool (value : Bool)
  | number (value : Number)
  | text (value : String)
  deriving DecidableEq, Inhabited

namespace Literal

/-- The number that a truth value or a number compares as. -/
def numeric? : Literal → Option Number
  | .bool value => some (if value then .one else .zero)
  | .number value => some value
  | .nil | .text _ => none

/-- Equality of values: numbers and truth values numerically, texts character by character. -/
def equals (a b : Literal) : Bool :=
  match a.numeric?, b.numeric? with
  | some m, some n => m.equals n
  | none, none => a = b
  | _, _ => false

def tokenText : Literal → String
  | .nil => "null"
  | .bool value => if value then "True" else "False"
  | .number value => value.text
  | .text value => value

def exprText : Literal → String
  | .nil => "nil"
  | .bool value => if value then "true" else "false"
  | .number value => value.text
  | .text value => value

/-- A text from which the constant can be read back. -/
def description : Literal → String
  | .nil => "None"
  | .bool value => if value then "True" else "False"
  | .number value => value.text
  | .text value => Text.quote value

end Literal

end LoxSyntax
