import LoxSyntax.Parse.Basic
import LoxSyntax.Scan.Run

/-! # From a source text to an expression

`scanSource` and `runSource` take a text through the two passes, which add their diagnostics to
one reporter. -/

namespace LoxSyntax

inductive PassFault
  | scan (fault : Scan.Fault)
  | parse (fault : Parse.Fault)
  deriving DecidableEq

def PassFault.message : PassFault → String
  | .scan fault => fault.message
  | .parse fault => fault.message

def scanSource (source : String) (reporter : Reporter) : Except Scan.Fault (List Token) × Reporter :=
  let (result, s) := (Scan.ofText source.toList reporter).run
  (result, s.reporter)

def parseTokens (tokens : List Token) (reporter : Reporter)
    (budget : Nat := Grammar.defaultBudget) : Except Parse.Fault ParseResult × Reporter :=
  match Parse.ofTokens tokens reporter with
  | .ok p => (p.run budget).map id Parse.reporter
  | .error fault => (.error fault, reporter)

/-- The tokens of a source text and what is read from them. -/
def runSource (source : String) (reporter : Reporter) :
    Except PassFault (List Token × ParseResult) × Reporter :=
  match scanSource source reporter with
  | (.error fault, reporter) => (.error (.scan fault), reporter)
  | (.ok tokens, reporter) =>
    match parseTokens tokens reporter with
    | (.error fault, reporter) => (.error (.parse fault), reporter)
    | (.ok result, reporter) => (.ok (tokens, result), reporter)

end LoxSyntax
