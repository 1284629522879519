import LoxSyntax.Run.Basic
import LoxSyntax.Text.Blank

/-! # Interactive sessions

In a session each line is a source text of its own. Four lines are commands, blanks around them
not counting: `:tokens` and `:json` turn a mode on or off, `exit` and `quit` end the session.
`Session.step` answers one line and `Session.transcript` a whole input, which may also end the
session by ending. A session breaks off at a line whose expression there is no room to write. -/

namespace LoxSyntax

structure Session where
  modes : Modes
  reporter : Reporter

namespace Session

inductive Command
  | leave
  | skip
  | toggleTokens
  | toggleJson
  | evaluate
  deriving DecidableEq

def Command.ofLine (line : String) : Command :=
  match Text.trim line with
  | "exit" | "quit" => .leave
  | "" => .skip
  | ":tokens" => .toggleTokens
  | ":json" => .toggleJson
  | _ => .evaluate

def banner : Output := { stdout := "Lox REPL. Type 'exit' or 'quit' to leave.\n" }

/-- What stands before each line, and before the end of the input. -/
def prompt : Output := { stdout := "> " }

def farewell : String := "Exiting Lox REPL.\n"

def modeLine (name : String) (on : Bool) : Output :=
  { stdout := "[mode] >>> " ++ name ++ " output " ++ (if on then "ON" else "OFF") ++ "\n" }

def start (modes : Modes) : Session := ⟨modes, {}⟩

/-- Scans and parses a line as it is, once the diagnostics of earlier lines are taken away. -/
def evaluate (line : String) (s : Session) (room : Nat := Expr.defaultRoom) :
    Except Run.Fault (Output × Session) :=
  match runSource line s.reporter.reset with
  | (.error fault, _) => .error (.pass fault)
  | (.ok (tokens, result), reporter) =>
    match s.modes.render tokens result room with
    | .error fault => .error (.unprintable fault)
    | .ok stdout =>
      let stderr :=
        if reporter.hadError then "[error] >>>\n" ++ Run.diagnosticLines reporter else ""
      .ok (⟨stdout, stderr⟩, { s with reporter })

/-- Answers one line, and goes on with a session unless the line ends it. -/
def step (line : String) (s : Session) (room : Nat := Expr.defaultRoom) :
    Except Run.Fault (Output × Option Session) :=
  match Command.ofLine line with
  | .leave => .ok ({ stdout := farewell }, none)
  | .skip => .ok ({}, some s)
  | .toggleTokens =>
    let on := !s.modes.tokens
    .ok (modeLine "Token" on, some { s with modes.tokens := on })
  | .toggleJson =>
    let on := !s.modes.json
    .ok (modeLine "JSON" on, some { s with modes.json := on })
  | .evaluate => (s.evaluate line room).map fun (output, s) => (output, some s)

def endOfInput : Output := { stdout := "\n" ++ farewell }

/-- Answers lines up to the one that ends the session, or to the end of the input. -/
def run (s : Session) (lines : List String) (room : Nat := Expr.defaultRoom) : Report :=
  match lines with
  | [] => .succeed (prompt ++ endOfInput) 0
  | line :: lines =>
    match s.step line room with
    | .error fault => ⟨prompt, .error fault⟩
    | .ok (output, none) => .succeed (prompt ++ output) 0
    | .ok (output, some s) => (run s lines room).after (prompt ++ output)

def transcript (modes : Modes) (input : String) (room : Nat := Expr.defaultRoom) : Report :=
  let lines := Text.lines (Text.foldNewlines input.toList)
  ((start modes).run (lines.map String.ofList) room).after banner

end Session

end LoxSyntax
