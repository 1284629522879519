import LoxSyntax.Run.Source

/-! # One reporter in shared use

`Reporter.Use` lists what can be done with a reporter that scans and parses share, and
`Reporter.perform` does it. Only `reset` takes diagnostics away. -/

namespace LoxSyntax.Reporter

inductive Use
  | report (diagnostic : Diagnostic)
  | reset
  | size
  | check
  /-- Compares one of the diagnostics with another. -/
  | compare (index : Nat) (diagnostic : Diagnostic)
  | scan (source : String)
  | parse (tokens : List Token)
  | run (source : String)

inductive Answer
  | done
  | count (value : Nat)
  | flag (value : Bool)
  /-- All diagnostics, of which there is at least one. -/
  | failed (diagnostics : List Diagnostic)
  | tokens (value : List Token)
  | result (value : ParseResult)

def perform (use : Use) (r : Reporter) : Except PassFault Answer × Reporter :=
  match use with
  | .report diagnostic => (.ok .done, r.report diagnostic)
  | .reset => (.ok .done, r.reset)
  | .size => (.ok (.count r.size), r)
  | .check =>
    match r.check with
    | .ok () => (.ok .done, r)
    | .error diagnostics => (.ok (.failed diagnostics), r)
  | .compare index diagnostic => (.ok (.flag (r.diagnostics[index]? = some diagnostic)), r)
  | .scan source =>
    (scanSource source r).map (fun result => (result.mapError .scan).map .tokens) id
  | .parse tokens =>
    (parseTokens tokens r).map (fun result => (result.mapError .parse).map .result) id
  | .run source => (runSource source r).map (Except.map fun (_, result) => .result result) id

end LoxSyntax.Reporter
