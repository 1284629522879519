import LoxSyntax.Grammar.Descent
import LoxSyntax.Parse.Result

/-! # A parse under way

`Parse` is the state of a parse: a token list that the end token closes, and a cursor in it. The
operations of this module never change the list, never move the cursor back, and never move it
past an end token, of which there may be one before the last. What goes wrong is reported at the
token under the cursor, except that a rule whose nesting is too deep breaks off without a report. A
whole parse reports that, too. -/

namespace LoxSyntax

structure Parse where
  tokens : List Token
  /-- The last token is the end token. -/
  closed : tokens.getLast?.any Token.isEnd
  /-- The place of the next token. -/
  current : Nat
  reporter : Reporter
  /-- Whether the tokens have been parsed as a whole. -/
  finished : Bool

namespace Parse

inductive Fault
  | notClosed
  | syntaxError (message : String)
  /-- A rule has run out of the nesting that it may have. -/
  | tooDeep
  | alreadyParsed
  deriving DecidableEq

def Fault.message : Fault → String
  | .notClosed => "Token list must end with an EOF token"
  | .syntaxError message => message
  | .tooDeep => "maximum recursion depth exceeded"
  | .alreadyParsed => "Parser has already consumed its tokens"

/-- A parse about to begin, which adds its diagnostics to those of the reporter. -/
def ofTokens (tokens : List Token) (reporter : Reporter) : Except Fault Parse :=
  if closed : tokens.getLast?.any Token.isEnd then
    .ok { tokens, closed, current := 0, reporter, finished := false }
  else .error .notClosed

variable (p : Parse)

theorem tokens_ne_nil : p.tokens ≠ [] := by
  intro h
  simpa [h] using p.closed

/-- The end token that closes the list. -/
def last : Token := p.tokens.getLast p.tokens_ne_nil

def peek : Token := p.tokens[p.current]?.getD p.last

/-- The token before the cursor; before the first token stands the last one. -/
def previous : Token :=
  match p.current with
  | 0 => p.last
  | n + 1 => p.tokens[n]?.getD p.last

def ahead : List Token := p.tokens.drop p.current

def isAtEnd : Bool := p.peek.isEnd

/-- Moves the cursor over the next token, unless that is an end token. -/
def advance : Parse :=
  if p.isAtEnd then p else { p with current := p.current + 1 }

/-- Whether the next token is of a kind; an end token is of none. -/
def check (kind : Kind) : Bool := !p.isAtEnd && p.peek.kind = kind

/-- Moves the cursor over the next token if it is of one of the kinds. -/
def matchAny (kinds : List Kind) : Bool × Parse :=
  if kinds.any p.check then (true, p.advance) else (false, p)

def error (token : Token) (message : String) : Parse :=
  let place := if token.isEnd then " at end" else " at '" ++ token.lexeme ++ "'"
  { p with reporter := p.reporter.report ⟨token.line, message, place⟩ }

/-- Moves the cursor over the next token if it is of the kind, and reports the message at that
token otherwise. -/
def consume (kind : Kind) (message : String) : Except Fault Token × Parse :=
  if p.check kind then (.ok p.advance.previous, p.advance)
  else (.error (.syntaxError message), p.error p.peek message)

/-- Moves the cursor over the tokens that a reader takes, and reports its failure at the first
token that it did not take, unless the nesting is too deep. -/
def read (reader : Grammar.Reader) : Except Fault Expr × Parse :=
  let outcome := reader p.ahead
  let moved := { p with current := p.current + outcome.taken }
  match outcome.result with
  | .ok e => (.ok e, moved)
  | .error .nestingTooDeep => (.error .tooDeep, moved)
  | .error failure => (.error (.syntaxError failure.message), moved.error moved.peek failure.message)

def apply (rule : Rule) (budget : Nat) : Except Fault Expr × Parse :=
  p.read (rule.apply budget)

/-- Reads all tokens from the cursor to the next end token as one expression, once, and reports
every failure. -/
def run (budget : Nat) : Except Fault ParseResult × Parse :=
  if p.finished then (.error .alreadyParsed, p)
  else
    match { p with finished := true }.read (Grammar.readAll budget) with
    | (.ok e, p') => (.ok ⟨some e, []⟩, p')
    | (.error .tooDeep, p') =>
      let p'' := p'.error p'.peek Grammar.Failure.nestingTooDeep.message
      (.ok ⟨none, p''.reporter.since p.reporter.size⟩, p'')
    | (.error _, p') => (.ok ⟨none, p'.reporter.since p.reporter.size⟩, p')

end Parse

end LoxSyntax
