import LoxSyntax.CommandLine.Arguments
import LoxSyntax.Session

/-! # What a command line starts

`Plan.of` turns the arguments into a plan, and `Plan.execute` carries it out on given files and a
given input. Without arguments, without a source, or with `--repl`, a session begins. -/

namespace LoxSyntax.CommandLine

inductive Plan
  | nothing
  /-- To write a text that is known beforehand. -/
  | show (report : Report)
  | session (modes : Modes)
  | text (source : String) (modes : Modes) (strict : Bool)
  | file (path : String) (modes : Modes) (strict : Bool)

def modesOf (flags : List Flag) : Modes where
  tokens := .tokens ∈ flags
  json := .json ∈ flags

def Arguments.plan (arguments : Arguments) : Plan :=
  let flags := arguments.flags
  let modes := modesOf flags
  if .session ∈ flags then .session modes
  else
    match arguments.source with
    | none => .session modes
    | some source =>
      if .string ∈ flags then .text source modes (.strict ∈ flags)
      else .file source modes (.strict ∈ flags)

def occursIn (pattern : List Char) : List Char → Bool
  | [] => pattern.isEmpty
  | c :: cs => pattern.isPrefixOf (c :: cs) || occursIn pattern cs

/-- Whether an argument names the test runner. -/
def namesTestRunner (argument : String) : Bool :=
  occursIn "pytest".toList argument.toList

namespace Plan

def of (arguments : List String) : Plan :=
  if arguments.isEmpty then .session {}
  else
    match Arguments.read arguments with
    | .ok read => read.plan
    | .error .help => .show helpReport
    | .error (.mistake mistake) => .show mistake.report

/-- What a command line starts if the program is loaded as a module, which then stays idle under a
test runner. -/
def ofModule (arguments : List String) : Plan :=
  if arguments.any namesTestRunner then .nothing else of arguments

def path? : Plan → Option String
  | .file path _ _ => some path
  | _ => none

/-- Carries out a plan, given the contents of all files and the input. -/
def execute (files : String → Option (List UInt8)) (input : String) : Plan → Report
  | .nothing => .succeed {} 0
  | .show report => report
  | .session modes => Session.transcript modes input
  | .text source modes strict => Run.text source modes strict
  | .file path modes strict => Run.file files path modes strict

end Plan

end LoxSyntax.CommandLine
