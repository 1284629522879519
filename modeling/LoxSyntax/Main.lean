import LoxSyntax.CommandLine.Plan

/-! # The program

`main` turns its arguments into a plan and carries it out on the file that the plan needs. A
session is held line by line, so that each line is answered before the next one is read. -/

namespace LoxSyntax

def Output.write (output : Output) : IO Unit := do
  let stdout ← IO.getStdout
  stdout.putStr output.stdout
  stdout.flush
  IO.eprint output.stderr

/-- The status of a run that breaks off. -/
def Run.failure : UInt32 := 1

def Run.Fault.write (fault : Run.Fault) : IO UInt32 := do
  IO.eprintln fault.message
  return Run.failure

def Report.write (report : Report) : IO UInt32 := do
  report.output.write
  match report.ending with
  | .ok status => return status.toUInt32
  | .error fault => fault.write

/-- The contents of a file, if they can be read. -/
def fileContents? (path : String) : IO (Option (List UInt8)) := do
  let .ok contents ← (IO.FS.readBinFile path).toBaseIO | return none
  return some contents.toList

/-- The lines at hand, or those that the input brings next; none at its end. -/
def Session.nextLines (atHand : List String) : IO (List String) := do
  if atHand.isEmpty then
    let line ← (← IO.getStdin).getLine
    return (Text.lines (Text.foldNewlines line.toList)).map String.ofList
  else return atHand

partial def Session.converse (s : Session) (atHand : List String) : IO UInt32 := do
  Session.prompt.write
  match ← Session.nextLines atHand with
  | [] =>
    Session.endOfInput.write
    return 0
  | line :: atHand =>
    match s.step line with
    | .error fault => fault.write
    | .ok (output, next?) =>
      output.write
      match next? with
      | some next => next.converse atHand
      | none => return 0

/-- Carries out a plan on the files and streams of the system. -/
def CommandLine.Plan.perform : CommandLine.Plan → IO UInt32
  | .session modes => do
    Session.banner.write
    (Session.start modes).converse []
  | plan => do
    let contents := (← plan.path?.mapM fileContents?).join
    (plan.execute (fun _ => contents) "").write

end LoxSyntax

/-- Carries out what the arguments ask for. -/
def main (args : List String) : IO UInt32 :=
  (LoxSyntax.CommandLine.Plan.of args).perform
