import LoxSyntax.Proofs.Scan.Concatenation
import LoxSyntax.Proofs.Scan.History

/-! # A run that goes on from any state

A run looks at nothing before the cursor. Whatever a scan has been asked for before, even if some of
it failed, a run adds to the tokens and the diagnostics what a scan of the rest of the source alone
finds, on lines that go on from that of the state (`Scan.exists_run_eq`), and comes to the end of the
source (`Scan.run_performAll`). -/

namespace LoxSyntax.Scan

variable {s : Scan}

theorem after_eq_drop (s : Scan) : s.after = s.source.drop s.current := by
  rw [source_eq_passed, ← length_passed, List.drop_left]

theorem current_of_isAtEnd (h : s.isAtEnd = true) : s.current = s.source.length := by
  have hafter : s.after = [] := List.isEmpty_iff.1 h
  rw [source_eq_passed, hafter, List.append_nil, length_passed]

/-- A run goes on as a scan of the rest alone would, from the line of the state. -/
theorem exists_run_eq (hf : s.finished = false) (hline : 1 ≤ s.line) :
    ∃ (s' : Scan) (tokens : List Token) (diagnostics : List Diagnostic),
      scanSource (.ofList s.after) {} = (.ok tokens, Reporter.reportAll diagnostics {}) ∧
      s.run = (.ok s'.tokens.toList, s') ∧
      s'.tokens.toList = s.tokens.toList ++ tokens.map (Token.later (s.line - 1)) ∧
      s'.reporter.diagnostics.toList =
        s.reporter.diagnostics.toList ++ diagnostics.map (Diagnostic.later (s.line - 1)) ∧
      s'.isAtEnd = true := by
  obtain ⟨segments, h⟩ := exists_divides s.after
  obtain ⟨scanned, hrest, hrun⟩ := run_of_not_finished hf
  obtain ⟨s', hrun', hreporter⟩ := run_eq hf h
  obtain ⟨htokens, rfl⟩ : scanned.addEnd.tokens.toList = _ ∧ scanned.addEnd = s' := by
    simpa using hrun.symm.trans hrun'
  have hend : scanned.isAtEnd = true := isAtEnd_of_scanRest hrest
  obtain ⟨lines, hlines⟩ : ∃ lines, s.line = 1 + lines := ⟨s.line - 1, by omega⟩
  have hlater : (s.line : Int) - 1 = lines := by omega
  refine ⟨scanned.addEnd, Segment.tokens 1 segments ++ [.ending (.ofList s.after)],
    Segment.diagnostics 1 segments, ?_, hrun, ?_, ?_, hend⟩
  · rw [scanSource_eq (by rwa [String.toList_ofList])]
  · rw [htokens, hlater, hlines, Segment.tokens_later]
    simp [Token.ending, Token.later, Int.add_right_comm]
  · rw [hreporter, hlater, hlines, Segment.diagnostics_later]
    simp

/-- A run may begin in any state that operations other than runs have led to, failed ones among them.
It adds the tokens and the diagnostics that a scan of the source from the cursor on finds, each as
many lines later as the state is after the first line, and takes the cursor to the end of the
source. -/
theorem run_performAll (source : List Char) (reporter : Reporter) (history : List Operation)
    (h : .run ∉ history) :
    ∃ (s s' : Scan) (tokens : List Token) (diagnostics : List Diagnostic),
      performAll history (ofText source reporter) = s ∧
      scanSource (.ofList (source.drop s.current)) {} = (.ok tokens, Reporter.reportAll diagnostics {}) ∧
      perform .run s =
        (.ok (.tokens (s.tokens.toList ++ tokens.map (Token.later (s.line - 1)))), s') ∧
      s'.tokens.toList = s.tokens.toList ++ tokens.map (Token.later (s.line - 1)) ∧
      s'.reporter.diagnostics.toList =
        s.reporter.diagnostics.toList ++ diagnostics.map (Diagnostic.later (s.line - 1)) ∧
      s'.source = source ∧ s'.current = source.length := by
  have hcontinues := continues_performAll history (ofText source reporter)
  have hfinished := finished_performAll_iff history (ofText source reporter)
  generalize performAll history (ofText source reporter) = s at hcontinues hfinished
  have hf : s.finished = false := by
    rw [Bool.eq_false_iff, ne_eq, hfinished]
    simpa [ofText] using h
  have hsource : s.source = source := hcontinues.source_eq
  obtain ⟨s', tokens, diagnostics, hscan, hrun, htokens, hdiagnostics, hend⟩ :=
    exists_run_eq hf hcontinues.line_le
  have hsource' : s'.source = source := by
    have hmoves := (moves_run hf).continues.source_eq
    rw [hrun] at hmoves
    exact hmoves.trans hsource
  refine ⟨s, s', tokens, diagnostics, rfl, ?_, ?_, htokens, hdiagnostics, hsource', ?_⟩
  · rwa [← hsource, ← after_eq_drop]
  · rw [perform, hrun, htokens]
    rfl
  · rw [current_of_isAtEnd hend, hsource']

/-- The name and the newline are one lexeme, as the start has not been moved, and no number. -/
theorem run_performAll_afterFailure :
    .run ∉ [Operation.scanToken, .scanToken, .number] ∧
      ∃ s s' : Scan, performAll [.scanToken, .scanToken, .number] (ofText "x\n+1".toList {}) = s ∧
        (perform .number s).1 = .error (.notANumber "x\n") ∧ s.current = 2 ∧ s.line = 2 ∧
        perform .run s = (.ok (.tokens
          [⟨.identifier, "x", .nil, 1⟩, ⟨.plus, "+", .nil, 2⟩,
            ⟨.number, "1", .number (.signed false (Decimal.ofLexeme ['1']).nearest), 2⟩,
            ⟨.eof, "", .nil, 2⟩]), s') ∧
        s'.current = 4 := by
  have h : .run ∉ [Operation.scanToken, .scanToken, .number] := by simp
  obtain ⟨s, s', tokens, diagnostics, rfl, hscan, hrun, -, -, -, hcurrent⟩ :=
    run_performAll "x\n+1".toList {} _ h
  have hone : Segment.StandsBefore ⟨.lexeme .number, ['1']⟩ [] :=
    .integer rfl (by simp) (by simp) (by simp)
  have hdivides : Divides "+1".toList [⟨.lexeme .punctuation, ['+']⟩, ⟨.lexeme .number, ['1']⟩] :=
    .cons (.punctuation rfl) rfl (.cons hone.cut rfl .nil)
  obtain rfl : _ = tokens := by simpa using congrArg Prod.fst ((scanSource_eq hdivides {}).symm.trans hscan)
  exact ⟨h, _, s', rfl, rfl, rfl, rfl, hrun, hcurrent⟩

end LoxSyntax.Scan
