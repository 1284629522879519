import LoxSyntax.Proofs.Parse.Access
import LoxSyntax.Proofs.Scan.MaximalMunch
import LoxSyntax.Proofs.Scan.Stepwise

/-! # A run never breaks off

Whatever the source text and the reporter, both passes succeed and fit together
(`runSource_total`). The scan asks for no character past the end and finds a value for each number;
its tokens are closed by one end token, so the parse looks at no token outside of the list and comes
to an expression or to one diagnostic. -/

namespace LoxSyntax

/-- A token list that the end token closes is parsed alike whatever the reporter. -/
theorem exists_parseTokens_eq {tokens : List Token} (closed : tokens.getLast?.any Token.isEnd) :
    ∃ outcome, ∀ reporter : Reporter, parseTokens tokens reporter =
      (.ok (.ofOutcome outcome),
        reporter.reportAll (ParseResult.ofOutcome outcome).diagnostics) := by
  obtain ⟨outcome, hwalk, -⟩ := Walk.parse?_eq closed Grammar.defaultBudget {}
  refine ⟨outcome, fun reporter => ?_⟩
  obtain ⟨outcome', hwalk', hparse⟩ := Walk.parse?_eq closed Grammar.defaultBudget reporter
  cases hwalk.symm.trans hwalk'
  exact hparse

/-- The two passes of a run, whatever the reporter: the scan comes to tokens that the end token
closes, and the parse adds its diagnostics, of which there is one or an expression, to those of the
scan. -/
theorem exists_passes_forall (source : String) :
    ∃ tokens ds outcome,
      (∀ reporter : Reporter,
        scanSource source reporter = (.ok tokens, reporter.reportAll ds)) ∧
      (∀ reporter : Reporter, parseTokens tokens reporter = (.ok (.ofOutcome outcome),
        reporter.reportAll (ParseResult.ofOutcome outcome).diagnostics)) ∧
      ∀ reporter : Reporter, runSource source reporter = (.ok (tokens, .ofOutcome outcome),
        reporter.reportAll (ds ++ (ParseResult.ofOutcome outcome).diagnostics)) := by
  obtain ⟨segments, hdivides⟩ := exists_divides source.toList
  let tokens := Segment.tokens 1 segments ++ [Token.ending source]
  have hscan (reporter : Reporter) : scanSource source reporter =
      (.ok tokens, reporter.reportAll (Segment.diagnostics 1 segments)) :=
    scanSource_eq hdivides reporter
  have hclosed : tokens.getLast?.any Token.isEnd = true := by
    simp [tokens, Token.ending, Token.isEnd]
  obtain ⟨outcome, hparse⟩ := exists_parseTokens_eq hclosed
  refine ⟨tokens, Segment.diagnostics 1 segments, outcome, hscan, hparse, fun reporter => ?_⟩
  simp only [runSource, hscan, hparse, Reporter.reportAll_append]

/-- The two passes of a run: the scan comes to tokens that the end token closes, and the parse adds
its diagnostics, of which there is one or an expression, to those of the scan. -/
theorem exists_passes (source : String) (reporter : Reporter) :
    ∃ tokens scanned outcome, scanSource source reporter = (.ok tokens, scanned) ∧
      runSource source reporter = (.ok (tokens, .ofOutcome outcome),
        scanned.reportAll (ParseResult.ofOutcome outcome).diagnostics) := by
  obtain ⟨tokens, ds, outcome, hscan, -, hrun⟩ := exists_passes_forall source
  exact ⟨tokens, _, outcome, hscan reporter, Reporter.reportAll_append .. ▸ hrun reporter⟩

theorem exists_runSource_eq (source : String) (reporter : Reporter) :
    ∃ tokens result reporter', runSource source reporter = (.ok (tokens, result), reporter') := by
  obtain ⟨tokens, scanned, outcome, -, hrun⟩ := exists_passes source reporter
  exact ⟨tokens, .ofOutcome outcome, _, hrun⟩

/-- Both passes of a run succeed. The scan, character by character, comes to tokens that one end
token closes and no other end token is among. The parse can begin, looks at no place outside of
these tokens, and comes to an expression without a diagnostic or to one diagnostic without an
expression, which it adds to those of the scan. -/
theorem runSource_total (source : String) (reporter : Reporter) :
    ∃ body ending scanned outcome result,
      (Scan.ofText source.toList reporter).runStepwise = (.ok (body ++ [ending]), scanned) ∧
      ending.isEnd = true ∧ (∀ t ∈ body, t.isEnd = false) ∧
      (∃ p, Parse.ofTokens (body ++ [ending]) scanned.reporter = .ok p) ∧
      Walk.parse? (body ++ [ending]) Grammar.defaultBudget = some outcome ∧
      result = ParseResult.ofOutcome outcome ∧
      runSource source reporter = (.ok (body ++ [ending], result),
        scanned.reporter.reportAll result.diagnostics) ∧
      (result.expr.isSome = true ↔ result.diagnostics = []) ∧
      (result.expr = none ↔ ∃ d, result.diagnostics = [d]) := by
  obtain ⟨segments, hdivides⟩ := exists_divides source.toList
  obtain ⟨scanned, hrun, -⟩ := Scan.run_eq (s := .ofText source.toList reporter) rfl hdivides
  let body := Segment.tokens 1 segments
  let ending : Token := ⟨.eof, "", .nil, (1 + source.toList.count '\n' : Nat)⟩
  have hscan : (Scan.ofText source.toList reporter).run = (.ok (body ++ [ending]), scanned) := hrun
  have hclosed : (body ++ [ending]).getLast?.any Token.isEnd = true := by simp [ending, Token.isEnd]
  obtain ⟨outcome, hwalk, hparse⟩ := Walk.parse?_eq hclosed Grammar.defaultBudget scanned.reporter
  refine ⟨body, ending, scanned, outcome, .ofOutcome outcome, ?_, rfl,
    hdivides.isEnd_eq_false_of_mem_tokens 1, ⟨_, dif_pos hclosed⟩, hwalk, rfl, ?_, ?_, ?_⟩
  · rw [Scan.runStepwise_eq, hscan]
  · simp only [runSource, scanSource, hscan, hparse]
  · cases outcome <;> simp [ParseResult.ofOutcome]
  · cases outcome <;> simp [ParseResult.ofOutcome]

end LoxSyntax
