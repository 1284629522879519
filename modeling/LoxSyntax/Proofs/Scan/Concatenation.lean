import LoxSyntax.Proofs.Lexical.Lookahead
import LoxSyntax.Proofs.Scan.Writing

/-! # Texts one after the other

No segment goes on over the end of a line but a string. So the division of two texts with a newline
between them is the division of the first, the newline and the division of the second
(`Divides.append_newline`), if no string is left open in the first. What is found in the second is
found on later lines (`Segment.tokens_later`, `Segment.diagnostics_later`), and the scan of both is
the scan of the first without its end token and the scan of the second, so many lines later
(`scanSource_append_newline`). -/

namespace LoxSyntax

/-- The token, so many lines later. -/
def Token.later (lines : Int) (t : Token) : Token := { t with line := t.line + lines }

/-- The diagnostic, so many lines later. -/
def Diagnostic.later (lines : Int) (d : Diagnostic) : Diagnostic := { d with line := d.line + lines }

namespace Segment

variable {s : Segment} {segments : List Segment}

theorem collect_later {α : Type} {find? : Nat → Segment → Option α} {later : α → α} {lines : Nat}
    (h : ∀ line s, find? (line + lines) s = (find? line s).map later) (line : Nat)
    (segments : List Segment) :
    collect find? (line + lines) segments = (collect find? line segments).map later := by
  induction segments generalizing line with
  | nil => rfl
  | cons s segments ih =>
    rw [collect, collect, Nat.add_right_comm, h, ih, List.map_append]
    cases find? (line + s.newlines) s with
    | none => rfl
    | some a => rfl

theorem tokens_later (line lines : Nat) (segments : List Segment) :
    tokens (line + lines) segments = (tokens line segments).map (Token.later lines) := by
  refine collect_later (fun line s => ?_) line segments
  simp [token?, Function.comp_def, Token.later]

theorem diagnostics_later (line lines : Nat) (segments : List Segment) :
    diagnostics (line + lines) segments =
      (diagnostics line segments).map (Diagnostic.later lines) := by
  refine collect_later (fun line s => ?_) line segments
  simp [diagnostic?, Function.comp_def, Diagnostic.later]

theorem exists_mem_diagnostics {problem : Scan.Problem} (hs : s ∈ segments)
    (hproblem : s.problem? = some problem) (line : Nat) :
    ∃ d ∈ diagnostics line segments, d.message = problem.message := by
  obtain ⟨before, after, rfl⟩ := List.append_of_mem hs
  refine ⟨⟨(line + (before.flatMap text).count '\n' + s.newlines : Nat), problem.message, ""⟩, ?_, rfl⟩
  rw [diagnostics, collect_append, collect, diagnostic?, hproblem]
  simp

end Segment

open Segment

theorem Divides.forall_closed {source : String} {segments : List Segment}
    (h : Divides source.toList segments)
    (hclosed : ∀ d ∈ (scanSource source {}).2.diagnostics, d.message ≠ "Unterminated string.") :
    ∀ s ∈ segments, s.sort ≠ .unterminated := by
  intro s hs hsort
  have hproblem : s.problem? = some .unterminatedString := by rw [problem?, hsort]
  obtain ⟨d, hd, hmessage⟩ := exists_mem_diagnostics hs hproblem 1
  exact hclosed d (by simpa [scanSource_eq h, ← Array.mem_toList_iff] using hd) hmessage

/-- The divisions of two texts with a newline between them. -/
theorem Divides.append_newline {first second : List Char} {segments segments' : List Segment}
    (h : Divides first segments) (h' : Divides second segments')
    (hclosed : ∀ s ∈ segments, s.sort ≠ .unterminated) :
    Divides (first ++ '\n' :: second) (segments ++ newline :: segments') := by
  have hall : Divides first (segments ++ []) := by rwa [List.append_nil]
  have hsecond : Divides ('\n' :: second) (newline :: segments') := .cons .newline rfl h'
  have hline : AtLineEnd ('\n' :: second) := by
    rintro d ⟨⟩
    rfl
  have hboth := hall.exchange hsecond (.of_atLineEnd hline) (fun _ => hline)
    fun s hs hsort => absurd hsort (hclosed s hs)
  rwa [h.flatMap_text] at hboth

/-- What is found in the segments of both texts, if nothing is found in a newline. -/
theorem Divides.collect_append_newline {α : Type} {find? : Nat → Segment → Option α}
    {first : List Char} {segments : List Segment} (h : Divides first segments)
    (hnewline : ∀ line, find? line newline = none) (line : Nat) (segments' : List Segment) :
    collect find? line (segments ++ newline :: segments') =
      collect find? line segments ++ collect find? (line + (first.count '\n' + 1)) segments' := by
  rw [collect_append, h.flatMap_text, collect, hnewline, Nat.add_assoc]
  rfl

theorem Token.ending_append_newline (first second : String) :
    ending (first ++ "\n" ++ second) = (ending second).later (first.toList.count '\n' + 1 : Nat) := by
  have hlines : 1 + (first ++ "\n" ++ second).toList.count '\n' =
      1 + second.toList.count '\n' + (first.toList.count '\n' + 1) := by
    simp
    omega
  rw [ending, hlines]
  rfl

/-- Scans go line by line. If the scan of a text reports no string that is not closed, then the scan
of the text, a newline and another text finds the tokens of the first without the end token and those
of the second, and reports what it reports for the first and for the second, all of the second as many
lines later as the first has newlines, and one. -/
theorem scanSource_append_newline (first second : String)
    (hclosed : ∀ d ∈ (scanSource first {}).2.diagnostics, d.message ≠ "Unterminated string.") :
    ∃ (tokens tokens' : List Token) (diagnostics diagnostics' : List Diagnostic),
      (∀ t ∈ tokens, t.isEnd = false) ∧
      ∀ reporter : Reporter,
        scanSource first reporter =
          (.ok (tokens ++ [.ending first]), reporter.reportAll diagnostics) ∧
        scanSource second reporter =
          (.ok tokens', reporter.reportAll diagnostics') ∧
        scanSource (first ++ "\n" ++ second) reporter =
          (.ok (tokens ++ tokens'.map (Token.later (first.toList.count '\n' + 1 : Nat))),
            reporter.reportAll (diagnostics ++
              diagnostics'.map (Diagnostic.later (first.toList.count '\n' + 1 : Nat)))) := by
  obtain ⟨segments, h⟩ := exists_divides first.toList
  obtain ⟨segments', h'⟩ := exists_divides second.toList
  have hboth : Divides (first ++ "\n" ++ second).toList (segments ++ newline :: segments') := by
    have hdivides := h.append_newline h' (h.forall_closed hclosed)
    simpa using hdivides
  have htokens : tokens 1 (segments ++ newline :: segments') = tokens 1 segments ++
      (tokens 1 segments').map (Token.later (first.toList.count '\n' + 1 : Nat)) := by
    rw [← tokens_later]
    exact h.collect_append_newline (fun _ => rfl) 1 segments'
  have hdiagnostics : diagnostics 1 (segments ++ newline :: segments') = diagnostics 1 segments ++
      (diagnostics 1 segments').map (Diagnostic.later (first.toList.count '\n' + 1 : Nat)) := by
    rw [← diagnostics_later]
    exact h.collect_append_newline (fun _ => rfl) 1 segments'
  refine ⟨tokens 1 segments, tokens 1 segments' ++ [.ending second], diagnostics 1 segments,
    diagnostics 1 segments', h.isEnd_eq_false_of_mem_tokens 1, fun reporter =>
    ⟨scanSource_eq h reporter, scanSource_eq h' reporter, ?_⟩⟩
  rw [scanSource_eq hboth, htokens, hdiagnostics, Token.ending_append_newline]
  simp

/-- The point at the end of a line and the digit on the next are no fraction. -/
theorem scanSource_append_newline_pointAtEnd :
    (∀ d ∈ (scanSource "1." {}).2.diagnostics, d.message ≠ "Unterminated string.") ∧
      scanSource ("1." ++ "\n" ++ "5@") {} =
        (.ok [⟨.number, "1", .number (.signed false (Decimal.ofLexeme ['1']).nearest), 1⟩,
            ⟨.dot, ".", .nil, 1⟩,
            ⟨.number, "5", .number (.signed false (Decimal.ofLexeme ['5']).nearest), 2⟩,
            ⟨.eof, "", .nil, 2⟩],
          ⟨#[⟨2, "Unexpected character.", ""⟩], true⟩) := by
  have hone : StandsBefore ⟨.lexeme .number, ['1']⟩ ['.'] :=
    .integer rfl (by simp) (by rintro d ⟨⟩; rfl) (by simp)
  have hfive : StandsBefore ⟨.lexeme .number, ['5']⟩ ['@'] :=
    .integer rfl (by simp) (by rintro d ⟨⟩; rfl) (by simp)
  have hfirst : Divides "1.".toList [⟨.lexeme .number, ['1']⟩, ⟨.lexeme .punctuation, ['.']⟩] :=
    .cons hone.cut rfl (.cons (.punctuation rfl) rfl .nil)
  have hsecond : Divides "5@".toList [⟨.lexeme .number, ['5']⟩, ⟨.unexpected, ['@']⟩] :=
    .cons hfive.cut rfl (.cons (.unexpected_of_nothing rfl) rfl .nil)
  have hclosed : ∀ d ∈ (scanSource "1." {}).2.diagnostics, d.message ≠ "Unterminated string." := by
    rw [scanSource_eq hfirst]
    simp [← Array.mem_toList_iff, diagnostics, collect, diagnostic?, problem?]
  obtain ⟨tokens, tokens', diagnostics, diagnostics', -, hscan⟩ :=
    scanSource_append_newline "1." "5@" hclosed
  obtain ⟨h, h', hboth⟩ := hscan {}
  rw [scanSource_eq hfirst] at h
  rw [scanSource_eq hsecond] at h'
  obtain ⟨htokens, hreporter⟩ := Prod.mk.inj h
  obtain ⟨htokens', hreporter'⟩ := Prod.mk.inj h'
  obtain rfl : Segment.tokens 1 _ = tokens := by simpa using htokens
  obtain rfl : _ = tokens' := by simpa using htokens'
  obtain rfl : Segment.diagnostics 1 _ = diagnostics := Reporter.reportAll_injective {} hreporter
  obtain rfl : Segment.diagnostics 1 _ = diagnostics' := Reporter.reportAll_injective {} hreporter'
  exact ⟨hclosed, hboth⟩

end LoxSyntax
