import LoxSyntax.Parse.Basic

/-! # The operations on a parse

`Parse.Operation` lists what can be asked of a parse, one step at a time, and `Parse.perform`
carries an operation out. An operation that fails has reported why, except a rule whose nesting is too
deep; later operations go on from where it stopped. -/

namespace LoxSyntax.Parse

inductive Operation
  | peek
  | previous
  | advance
  | isAtEnd
  | check (kind : Kind)
  | matchAny (kinds : List Kind)
  | consume (kind : Kind) (message : String)
  | error (token : Token) (message : String)
  | apply (rule : Rule)
  | run

inductive Answer
  | token (value : Token)
  | flag (value : Bool)
  | expr (value : Expr)
  | result (value : ParseResult)
  /-- A fault that has been reported and may be raised later. -/
  | fault (value : Fault)

def perform (operation : Operation) (p : Parse)
    (budget : Nat := Grammar.defaultBudget) : Except Fault Answer × Parse :=
  match operation with
  | .peek => (.ok (.token p.peek), p)
  | .previous => (.ok (.token p.previous), p)
  | .advance => (.ok (.token p.advance.previous), p.advance)
  | .isAtEnd => (.ok (.flag p.isAtEnd), p)
  | .check kind => (.ok (.flag (p.check kind)), p)
  | .matchAny kinds => (p.matchAny kinds).map (.ok ∘ .flag) id
  | .consume kind message => (p.consume kind message).map (Except.map .token) id
  | .error token message => (.ok (.fault (.syntaxError message)), p.error token message)
  | .apply rule => (p.apply rule budget).map (Except.map .expr) id
  | .run => (p.run budget).map (Except.map .result) id

end LoxSyntax.Parse
