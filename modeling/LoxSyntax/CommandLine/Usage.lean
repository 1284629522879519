import LoxSyntax.CommandLine.Flag
import LoxSyntax.Run.Report

/-! # Usage texts

The text that explains the command line, and the texts of what can be wrong with one. -/

namespace LoxSyntax.CommandLine

def usageLine : String :=
  "usage: lox [-h] [-s] [--tokens] [--json] [--strict] [--repl] [source]\n"

def helpText : String :=
  usageLine ++ "\n" ++
  "positional arguments:\n" ++
  "  source        Filename or raw source (with -s)\n" ++
  "\n" ++
  "options:\n" ++
  "  -h, --help    show this help message and exit\n" ++
  "  -s, --string  Interpret source as literal string\n" ++
  "  --tokens      Print scanned tokens instead of the AST\n" ++
  "  --json        Print the AST as JSON\n" ++
  "  --strict      Raise instead of exiting with status 65\n" ++
  "  --repl        Launch interactive REPL\n"

inductive Mistake
  /-- An argument is the beginning of several names. -/
  | ambiguous (argument : String) (names : List String)
  /-- A flag is given a value. -/
  | unwantedValue (flag : Flag) (value : String)
  | unrecognized (arguments : List String)
  deriving DecidableEq

def Mistake.message : Mistake → String
  | .ambiguous argument names =>
    "ambiguous option: " ++ argument ++ " could match " ++ ", ".intercalate names
  | .unwantedValue flag value =>
    "argument " ++ flag.title ++ ": ignored explicit argument " ++ Text.quote value
  | .unrecognized arguments => "unrecognized arguments: " ++ " ".intercalate arguments

/-- The status of a run whose command line has a mistake. -/
def usageError : Nat := 2

def Mistake.report (m : Mistake) : Report :=
  .succeed { stderr := usageLine ++ "lox: error: " ++ m.message ++ "\n" } usageError

def helpReport : Report :=
  .succeed { stdout := helpText } 0

end LoxSyntax.CommandLine
