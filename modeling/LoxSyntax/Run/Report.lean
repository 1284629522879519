import LoxSyntax.Expr.PrefixText
import LoxSyntax.Run.Source
import LoxSyntax.Text.Utf8

/-! # What a run comes to

A run writes on two streams and ends with a status, or breaks off with a `Run.Fault`. -/

namespace LoxSyntax

structure Output where
  stdout : String := ""
  stderr : String := ""
  deriving DecidableEq, Inhabited

def Output.append (a b : Output) : Output := ⟨a.stdout ++ b.stdout, a.stderr ++ b.stderr⟩

instance : Append Output := ⟨Output.append⟩

inductive Run.Fault
  | unsupportedFile
  | missingFile (path : String)
  | undecodable (fault : Utf8.Fault)
  /-- A strict run found something to report. -/
  | syntaxErrors (diagnostics : List Diagnostic)
  | pass (fault : PassFault)
  | unprintable (fault : Expr.TextFault)
  deriving DecidableEq

def Run.Fault.message : Run.Fault → String
  | .unsupportedFile => "Only .lox files are supported."
  | .missingFile path => "[Errno 2] No such file or directory: " ++ Text.quote path
  | .undecodable fault => fault.message
  | .syntaxErrors diagnostics => Diagnostic.textOfList diagnostics
  | .pass fault => fault.message
  | .unprintable fault => fault.message

/-- What a run writes, and its status unless it breaks off. -/
structure Report where
  output : Output
  ending : Except Run.Fault Nat

namespace Report

/-- A run that writes nothing and breaks off. -/
def fail (fault : Run.Fault) : Report := ⟨{}, .error fault⟩

def succeed (output : Output) (status : Nat) : Report := ⟨output, .ok status⟩

/-- The same run after something has been written. -/
def after (output : Output) (r : Report) : Report := ⟨output ++ r.output, r.ending⟩

end Report

end LoxSyntax
