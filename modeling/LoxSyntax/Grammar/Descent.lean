import LoxSyntax.Expr.Basic
import LoxSyntax.Grammar.Rule

/-! # Recursive descent

`Rule.apply` reads the longest expression of a rule from the front of a token list. It looks one
token ahead, never goes back, and answers how many tokens it took, also when it fails: then the
first token not taken is the one to blame. The end token belongs to no rule, so it is never taken.

Descending into an operand costs nesting budget: one for each unary operator, seven for each
parenthesis, which leads through all seven rules. Chains of binary operators cost nothing. -/

namespace LoxSyntax

/-- Why no expression can be read. -/
inductive Grammar.Failure
  | operandMissing
  | parenthesisUnclosed
  | endMissing
  | nestingTooDeep
  deriving DecidableEq

def Grammar.Failure.message : Grammar.Failure → String
  | operandMissing => "Expect expression."
  | parenthesisUnclosed => "Expect ')' after expression."
  | endMissing => "Expect end of expression."
  | nestingTooDeep => "Expression nesting too deep."

/-- What reading an expression comes to. -/
structure Grammar.Outcome where
  result : Except Failure Expr
  /-- How many tokens were taken. -/
  taken : Nat

namespace Grammar

abbrev Reader := List Token → Outcome

namespace Outcome

def accept (e : Expr) (taken : Nat) : Outcome := ⟨.ok e, taken⟩

def fail (failure : Failure) (taken : Nat) : Outcome := ⟨.error failure, taken⟩

/-- The same outcome after `n` more tokens. -/
def shift (n : Nat) (o : Outcome) : Outcome := ⟨o.result, n + o.taken⟩

/-- What follows an expression, read from the tokens that it left, or the failure to read it. -/
def andThen (o : Outcome) (next : Expr → Reader) (tokens : List Token) : Outcome :=
  match o.result with
  | .ok e => (next e (tokens.drop o.taken)).shift o.taken
  | .error failure => fail failure o.taken

end Outcome

/-- Reads operators and their right operands as long as operators follow, folding them to the
left onto an expression that has been read. -/
def chainRest (operators : List Kind) (operand : Reader) (left : Expr) (tokens : List Token) :
    Outcome :=
  match tokens with
  | [] => .accept left 0
  | operator :: rest =>
    if operator.kind ∈ operators then
      match operand rest with
      | ⟨.ok right, taken⟩ =>
        (chainRest operators operand (.binary left operator right) (rest.drop taken)).shift
          (taken + 1)
      | ⟨.error failure, taken⟩ => .fail failure (taken + 1)
    else .accept left 0
termination_by tokens.length
decreasing_by simp only [List.length_drop, List.length_cons]; omega

def chain (operators : List Kind) (operand : Reader) (tokens : List Token) : Outcome :=
  (operand tokens).andThen (chainRest operators operand) tokens

def factorOf (operand : Reader) : Reader := chain (Rule.operators .factor) operand

def termOf (operand : Reader) : Reader := chain (Rule.operators .term) (factorOf operand)

def comparisonOf (operand : Reader) : Reader :=
  chain (Rule.operators .comparison) (termOf operand)

/-- Reads whole expressions, given a reader of the tightest operands. -/
def equalityOf (operand : Reader) : Reader :=
  chain (Rule.operators .equality) (comparisonOf operand)

/-- Takes the closing parenthesis of a group. -/
def close (line : Int) (inner : Expr) : Reader
  | [] => .fail .parenthesisUnclosed 0
  | t :: _ =>
    if t.kind = .rightParen then .accept (.grouping inner line) 1
    else .fail .parenthesisUnclosed 0

/-- Reads a constant, a name or a group, given a reader of what stands between parentheses, if
the nesting allows any. -/
def primaryWith (inner : Option Reader) : Reader
  | [] => .fail .operandMissing 0
  | t :: rest =>
    match t.kind with
    | .falseWord => .accept (.literal (.bool false) t.line) 1
    | .trueWord => .accept (.literal (.bool true) t.line) 1
    | .nilWord => .accept (.literal .nil t.line) 1
    | .number | .string => .accept (.literal t.literal t.line) 1
    | .identifier => .accept (.reference t) 1
    | .leftParen =>
      match inner with
      | some read => ((read rest).andThen (close t.line) rest).shift 1
      | none => .fail .nestingTooDeep 1
    | _ => .fail .operandMissing 0

def applyUnary (operator : Token) (o : Outcome) : Outcome :=
  ⟨o.result.map (.unary operator), o.taken + 1⟩

/-- Reads unary operators and the primary expression that they stand before. -/
def unary (budget : Nat) (tokens : List Token) : Outcome :=
  match tokens with
  | [] => .fail .operandMissing 0
  | operator :: rest =>
    if operator.kind ∈ Rule.unaryOperators then
      match budget with
      | 0 => .fail .nestingTooDeep 1
      | budget + 1 => applyUnary operator (unary budget rest)
    else
      match budget with
      | budget + 7 => primaryWith (some (equalityOf (unary budget))) (operator :: rest)
      | _ => primaryWith none (operator :: rest)

def primary : (budget : Nat) → Reader
  | budget + 7 => primaryWith (some (equalityOf (unary budget)))
  | _ => primaryWith none

/-- The nesting that an expression may have. -/
def defaultBudget : Nat := 950

end Grammar

/-- Reads the longest expression of a rule from the front of a token list. -/
def Rule.apply (rule : Rule) (budget : Nat) : Grammar.Reader :=
  match rule with
  | expression | equality => Grammar.equalityOf (Grammar.unary budget)
  | comparison => Grammar.comparisonOf (Grammar.unary budget)
  | term => Grammar.termOf (Grammar.unary budget)
  | factor => Grammar.factorOf (Grammar.unary budget)
  | unary => Grammar.unary budget
  | primary => Grammar.primary budget

namespace Grammar

/-- Accepts an expression that the end token follows. -/
def finish (e : Expr) : Reader
  | [] => .accept e 0
  | t :: _ => if t.isEnd then .accept e 0 else .fail .endMissing 0

/-- Reads all tokens before the end token as one expression. -/
def readAll (budget : Nat) (tokens : List Token) : Outcome :=
  (Rule.expression.apply budget tokens).andThen finish tokens

end Grammar

end LoxSyntax
