import LoxSyntax.Number.Reading
import LoxSyntax.Reporter.Basic
import LoxSyntax.Scan.Opening
import LoxSyntax.Token.Basic

/-! # A scan under way

`Scan` is the state of a scan: the source text cut in three, at the start of the lexeme and at
the cursor, with the line of the cursor and what has been found. The operations of this module
move the cursor forward, never back, and add tokens and diagnostics at the end; `Scan.source`
is the same before and after each of them. Those that can fail answer a `Scan.Fault` beside the
state, which keeps what was done before the failure. -/

namespace LoxSyntax

structure Scan where
  /-- The text before the lexeme, nearest character first. -/
  before : List Char
  /-- The text from the start of the lexeme to the cursor. -/
  lexeme : List Char
  /-- The text from the cursor on. -/
  after : List Char
  line : Nat
  tokens : Array Token
  reporter : Reporter
  /-- Whether the whole source has been scanned. -/
  finished : Bool
  deriving Inhabited

namespace Scan

inductive Fault
  | endOfText
  | notANumber (text : String)
  | alreadyScanned
  deriving DecidableEq

def Fault.message : Fault → String
  | .endOfText => "string index out of range"
  | .notANumber text => "could not convert string to float: " ++ Text.quote text
  | .alreadyScanned => "Scanner has already consumed its source"

/-- What the scanner finds wrong with a text. -/
inductive Problem
  | unexpectedCharacter
  | unterminatedString
  deriving DecidableEq

def Problem.message : Problem → String
  | .unexpectedCharacter => "Unexpected character."
  | .unterminatedString => "Unterminated string."

/-- A scan about to begin, which adds its diagnostics to those of the reporter. -/
def ofText (source : List Char) (reporter : Reporter) : Scan where
  before := []
  lexeme := []
  after := source
  line := 1
  tokens := #[]
  reporter
  finished := false

def source (s : Scan) : List Char := s.before.reverse ++ s.lexeme ++ s.after

def start (s : Scan) : Nat := s.before.length

def current (s : Scan) : Nat := s.start + s.lexeme.length

def isAtEnd (s : Scan) : Bool := s.after.isEmpty

def next? (s : Scan) : Option Char := s.after.head?

def afterNext? (s : Scan) : Option Char := s.after[1]?

/-- Lets the lexeme start at the cursor. -/
def mark (s : Scan) : Scan :=
  { s with before := s.lexeme.reverseAux s.before, lexeme := [] }

def skip (n : Nat) (s : Scan) : Scan :=
  { s with lexeme := s.lexeme ++ s.after.take n, after := s.after.drop n }

/-- Moves the cursor over the longest run of characters satisfying `p`. -/
def skipWhile (p : Char → Bool) (s : Scan) : Scan :=
  { s with lexeme := s.lexeme ++ s.after.takeWhile p, after := s.after.dropWhile p }

/-- Adds a token whose lexeme and line are those of this moment. -/
def addToken (kind : Kind) (literal : Literal) (s : Scan) : Scan :=
  { s with tokens := s.tokens.push ⟨kind, .ofList s.lexeme, literal, s.line⟩ }

def report (problem : Problem) (s : Scan) : Scan :=
  { s with reporter := s.reporter.report ⟨s.line, problem.message, ""⟩ }

/-- Moves the cursor to the end of the line. -/
def skipComment (s : Scan) : Scan := s.skipWhile (· ≠ '\n')

/-- Moves the cursor past the next double quotation mark, counting newlines, and adds a string
token, whose value is its lexeme without the first and the last character. Without another mark
in the source the cursor goes to the end and the string is reported. -/
def string (s : Scan) : Scan :=
  let body := s.after.takeWhile (· ≠ '"')
  let closing := { s.skipWhile (· ≠ '"') with line := s.line + body.count '\n' }
  if closing.isAtEnd then closing.report .unterminatedString
  else
    let closed := closing.skip 1
    closed.addToken .string (.text (.ofList closed.lexeme.tail.dropLast))

/-- Moves the cursor over digits, and over a point and more digits if a digit follows the point. -/
def skipNumber (s : Scan) : Scan :=
  let whole := s.skipWhile Character.isDigit
  if whole.next? = some '.' && whole.afterNext?.any Character.isDigit then
    (whole.skip 1).skipWhile Character.isDigit
  else whole

/-- Moves the cursor over a number and adds a token whose value is that of the lexeme, which may
have begun with other characters and then be no numeral. -/
def number (s : Scan) : Except Fault Unit × Scan :=
  let s := s.skipNumber
  match Number.ofText? (.ofList s.lexeme) with
  | some value => (.ok (), s.addToken .number (.number value))
  | none => (.error (.notANumber (.ofList s.lexeme)), s)

/-- Moves the cursor over a word and adds a token, of a kind of its own if the lexeme is
reserved. -/
def word (s : Scan) : Scan :=
  let s := s.skipWhile Character.isWord
  s.addToken (Kind.ofWord (.ofList s.lexeme)) .nil

/-- Takes the rest of what the character before the cursor has opened. -/
def scanOpened (opening : Opening) (s : Scan) : Except Fault Unit × Scan :=
  match opening with
  | .punctuation kind => (.ok (), s.addToken kind .nil)
  | .operator alone withEqual =>
    if s.next? = some '=' then (.ok (), (s.skip 1).addToken withEqual .nil)
    else (.ok (), s.addToken alone .nil)
  | .slash =>
    if s.next? = some '/' then (.ok (), (s.skip 1).skipComment)
    else (.ok (), s.addToken .slash .nil)
  | .blank => (.ok (), s)
  | .newline => (.ok (), { s with line := s.line + 1 })
  | .string => (.ok (), s.string)
  | .number => s.number
  | .word => (.ok (), s.word)
  | .nothing => (.ok (), s.report .unexpectedCharacter)

/-- Takes one token, comment, blank or newline from the cursor on, or reports the character
there. The lexeme is not made to start at the cursor. -/
def scanToken (s : Scan) : Except Fault Unit × Scan :=
  match s.after with
  | [] => (.error .endOfText, s)
  | c :: _ => (s.skip 1).scanOpened (.of c)

end Scan

end LoxSyntax
