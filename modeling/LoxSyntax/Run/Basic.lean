import LoxSyntax.Expr.Room
import LoxSyntax.Run.Report
import LoxSyntax.Text.Line

/-! # Running one source text

`Run.text` takes a source text through both passes and writes what they found: the expression as
prefix text or as JSON, or the tokens, and the diagnostics on the other stream. `Run.file` does so
with the contents of a file. Without strictness a run with diagnostics ends with status 65; a
strict one breaks off and writes nothing. Any run breaks off, diagnostics or not, if there is no room
to write the expression. -/

namespace LoxSyntax

/-- What a run writes: tokens in place of the expression, or the expression as JSON. -/
structure Modes where
  tokens : Bool := false
  json : Bool := false
  deriving DecidableEq, Inhabited

/-- The lines of a text, each ended by a newline. -/
def Text.unlines (lines : List String) : String :=
  String.join (lines.map (· ++ "\n"))

/-- What the modes ask for: the tokens, or the expression if there is one. -/
def Modes.render (modes : Modes) (tokens : List Token) (result : ParseResult)
    (room : Nat := Expr.defaultRoom) : Except Expr.TextFault String :=
  if modes.tokens then .ok (Text.unlines (tokens.map Token.text))
  else
    match result.expr with
    | none => .ok ""
    | some e =>
      if modes.json then (e.recordWithin room).map fun record => Text.unlines [record.layout 0]
      else (e.prefixTextWithin room).map fun line => Text.unlines [line]

namespace Run

/-- The status of a run with diagnostics. -/
def dataError : Nat := 65

def diagnosticLines (r : Reporter) : String :=
  Text.unlines (r.diagnostics.toList.map Diagnostic.text)

def text (source : String) (modes : Modes) (strict : Bool) (room : Nat := Expr.defaultRoom) :
    Report :=
  match runSource source {} with
  | (.error fault, _) => .fail (.pass fault)
  | (.ok (tokens, result), reporter) =>
    if strict && reporter.hadError then .fail (.syntaxErrors reporter.diagnostics.toList)
    else
      match modes.render tokens result room with
      | .error fault => .fail (.unprintable fault)
      | .ok stdout =>
        .succeed ⟨stdout, diagnosticLines reporter⟩ (if reporter.hadError then dataError else 0)

/-- The ending that the name of a source file has. -/
def fileEnding : String := ".lox"

def isSourceFile (path : String) : Bool :=
  fileEnding.toList.isSuffixOf path.toList

def octets (contents : List UInt8) (modes : Modes) (strict : Bool) : Report :=
  match Utf8.decode contents with
  | .error fault => .fail (.undecodable fault)
  | .ok source => text (.ofList (Text.foldNewlines source)) modes strict

def file (files : String → Option (List UInt8)) (path : String) (modes : Modes) (strict : Bool) :
    Report :=
  if isSourceFile path then
    match files path with
    | some contents => octets contents modes strict
    | none => .fail (.missingFile path)
  else .fail .unsupportedFile

end Run

end LoxSyntax
