/-! # Diagnostics and their reporter

A `Diagnostic` is one problem found in a source text. A `Reporter` keeps the diagnostics of all
passes over a text in the order in which they were found. -/

namespace LoxSyntax

/-- One problem, with its line and a hint at its place on the line. -/
structure Diagnostic where
  line : Int
  message : String
  place : String
  deriving DecidableEq, Inhabited

def Diagnostic.text (d : Diagnostic) : String :=
  "[line " ++ toString d.line ++ "] Error" ++ d.place ++ ": " ++ d.message

/-- Diagnostics as they are shown, one a line, without a newline at the end. -/
def Diagnostic.textOfList (ds : List Diagnostic) : String :=
  "\n".intercalate (ds.map Diagnostic.text)

structure Reporter where
  diagnostics : Array Diagnostic := #[]
  /-- A flag that a report raises and a reset lowers. -/
  hadError : Bool := false
  deriving DecidableEq, Inhabited

namespace Reporter

def report (d : Diagnostic) (r : Reporter) : Reporter where
  diagnostics := r.diagnostics.push d
  hadError := true

def reset (r : Reporter) : Reporter :=
  { r with diagnostics := #[], hadError := false }

def size (r : Reporter) : Nat := r.diagnostics.size

def since (n : Nat) (r : Reporter) : List Diagnostic := r.diagnostics.toList.drop n

/-- Nothing, or all diagnostics if the flag is raised. -/
def check (r : Reporter) : Except (List Diagnostic) Unit :=
  if r.hadError then .error r.diagnostics.toList else .ok ()

end Reporter

end LoxSyntax
