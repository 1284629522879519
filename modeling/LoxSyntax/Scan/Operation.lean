import LoxSyntax.Scan.Run

/-! # The operations on a scan

`Scan.Operation` lists what can be asked of a scan, one step at a time, and `Scan.perform` carries
an operation out. An operation that fails answers a fault and leaves the state as far as it came;
later operations go on from there. -/

namespace LoxSyntax.Scan

inductive Operation
  | isAtEnd
  | advance
  | peek
  | peekNext
  /-- Moves over the next character if it is the whole of a text. -/
  | matchText (text : String)
  | scanToken
  | skipComment
  | string
  | number
  | word
  | addToken (kind : Kind) (literal : Literal)
  | mark
  | run

inductive Answer
  | done
  | flag (value : Bool)
  /-- A character, or none at the end of the source. -/
  | character (value : Option Char)
  | tokens (value : List Token)
  deriving DecidableEq

def advance (s : Scan) : Except Fault Char × Scan :=
  match s.after with
  | [] => (.error .endOfText, s)
  | c :: _ => (.ok c, s.skip 1)

/-- Moves over the next character if it is the whole of the text. -/
def matchText (text : String) (s : Scan) : Bool × Scan :=
  if s.next?.map String.singleton = some text then (true, s.skip 1) else (false, s)

def perform (operation : Operation) (s : Scan) : Except Fault Answer × Scan :=
  match operation with
  | .isAtEnd => (.ok (.flag s.isAtEnd), s)
  | .advance => s.advance.map (Except.map fun c => .character (some c)) id
  | .peek => (.ok (.character s.next?), s)
  | .peekNext => (.ok (.character s.afterNext?), s)
  | .matchText text => (s.matchText text).map (.ok ∘ .flag) id
  | .scanToken => s.scanToken.map (Except.map fun _ => .done) id
  | .skipComment => (.ok .done, s.skipComment)
  | .string => (.ok .done, s.string)
  | .number => s.number.map (Except.map fun _ => .done) id
  | .word => (.ok .done, s.word)
  | .addToken kind literal => (.ok .done, s.addToken kind literal)
  | .mark => (.ok .done, s.mark)
  | .run => s.run.map (Except.map .tokens) id

end LoxSyntax.Scan
