import LoxSyntax.Proofs.Grammar.Recognition
import LoxSyntax.Proofs.Reporter.Reports
import LoxSyntax.Run.Source

/-! # What a parse makes of a reader's outcome

A reader answers how many tokens it took; `Parse.read` and `Parse.run` turn that into a cursor and,
on failure, one diagnostic at the token under it (`Parse.blame`), which `Parse.read` leaves out if the
nesting is too deep (`Parse.complaints`). The lemmas of this module say so once for every reader, so
that later proofs speak of readers alone. -/

namespace LoxSyntax

/-- The diagnostic that a failure comes to at a token. -/
def Parse.blame (t : Token) (message : String) : Diagnostic where
  line := t.line
  message
  place := if t.isEnd then " at end" else " at '" ++ t.lexeme ++ "'"

/-- The fault of a reader that fails. -/
def Parse.Fault.ofFailure : Grammar.Failure → Parse.Fault
  | .nestingTooDeep => .tooDeep
  | failure => .syntaxError failure.message

/-- What a reader that fails at a token reports. -/
def Parse.complaints (t : Token) : Grammar.Failure → List Diagnostic
  | .nestingTooDeep => []
  | failure => [Parse.blame t failure.message]

/-- The default budget covers a nesting of 800 with room to spare. -/
theorem Grammar.le_defaultBudget {n : Nat} (h : n ≤ 800) : n ≤ Grammar.defaultBudget :=
  Nat.le_trans h (by decide)

section Closed

variable {tokens : List Token} (closed : tokens.getLast?.any Token.isEnd)

include closed

theorem findIdx_isEnd_lt : tokens.findIdx Token.isEnd < tokens.length := by
  obtain ⟨t, ht, hend⟩ := Option.any_eq_true .. |>.mp closed
  exact List.findIdx_lt_length_of_exists ⟨t, List.mem_of_getLast? ht, hend⟩

theorem closed_drop {n : Nat} (h : n < tokens.length) :
    (tokens.drop n).getLast?.any Token.isEnd := by
  rwa [List.getLast?_drop, if_neg (Nat.not_le.2 h)]

end Closed

namespace Parse

variable {p q : Parse} {reader : Grammar.Reader} {budget n : Nat} {e : Expr}
  {failure : Grammar.Failure}

theorem exists_isEnd (p : Parse) : ∃ t ∈ p.tokens, t.isEnd = true :=
  List.findIdx_lt_length.1 (findIdx_isEnd_lt p.closed)

theorem peek_eq_of_getElem? {t : Token} (h : p.tokens[p.current]? = some t) : p.peek = t := by
  simp [peek, h]

theorem read_of_accept (h : reader p.ahead = .accept e n) :
    p.read reader = (.ok e, { p with current := p.current + n }) := by
  simp only [read, h, Grammar.Outcome.accept]

theorem read_of_fail (h : reader p.ahead = .fail failure n) :
    p.read reader = (.error (.ofFailure failure),
      { p with
        current := p.current + n
        reporter := p.reporter.reportAll
          (complaints { p with current := p.current + n }.peek failure) }) := by
  simp only [read, h, Grammar.Outcome.fail]
  cases failure with
  | nestingTooDeep =>
    simp only [complaints, Reporter.reportAll_nil]
    rfl
  | _ =>
    simp only [complaints, Reporter.reportAll_cons, Reporter.reportAll_nil]
    rfl

theorem run_of_accept (hf : p.finished = false)
    (h : Grammar.readAll budget p.ahead = .accept e n) :
    p.run budget =
      (.ok ⟨some e, []⟩, { p with current := p.current + n, finished := true }) := by
  have hread : { p with finished := true }.read (Grammar.readAll budget) = _ := read_of_accept h
  simp only [run, hf, hread, Bool.false_eq_true, if_false]

theorem run_of_fail (hf : p.finished = false)
    (h : Grammar.readAll budget p.ahead = .fail failure n) :
    p.run budget =
      (.ok ⟨none, [blame { p with current := p.current + n }.peek failure.message]⟩,
        { p with
          current := p.current + n
          reporter := p.reporter.report
            (blame { p with current := p.current + n }.peek failure.message)
          finished := true }) := by
  have hread : { p with finished := true }.read (Grammar.readAll budget) = _ := read_of_fail h
  simp only [run, hf, hread, Bool.false_eq_true, if_false]
  cases failure with
  | nestingTooDeep =>
    simp only [Fault.ofFailure, complaints, Reporter.reportAll_nil, error, Reporter.since_size_report]
    rfl
  | _ => simp [Fault.ofFailure, complaints, peek, last]

end Parse

section Tokens

variable {tokens : List Token} {reporter : Reporter} {budget : Nat} {e : Expr}

theorem parseTokens_of_accept (closed : tokens.getLast?.any Token.isEnd) {n : Nat}
    (h : Grammar.readAll budget tokens = .accept e n) :
    parseTokens tokens reporter budget = (.ok ⟨some e, []⟩, reporter) := by
  have hp : Parse.ofTokens tokens reporter =
      .ok { tokens, closed, current := 0, reporter, finished := false } := dif_pos closed
  simp only [parseTokens, hp, Parse.run_of_accept (p := ⟨tokens, closed, 0, reporter, false⟩) rfl h]
  rfl

theorem parseTokens_of_fail (closed : tokens.getLast?.any Token.isEnd) {n : Nat} {t : Token}
    {failure : Grammar.Failure} (h : Grammar.readAll budget tokens = .fail failure n)
    (ht : tokens[n]? = some t) :
    parseTokens tokens reporter budget =
      (.ok ⟨none, [Parse.blame t failure.message]⟩,
        reporter.report (Parse.blame t failure.message)) := by
  have hp : Parse.ofTokens tokens reporter =
      .ok { tokens, closed, current := 0, reporter, finished := false } := dif_pos closed
  have hpeek : Parse.peek ⟨tokens, closed, 0 + n, reporter, false⟩ = t :=
    Parse.peek_eq_of_getElem? (by simpa using ht)
  simp only [parseTokens, hp, Parse.run_of_fail (p := ⟨tokens, closed, 0, reporter, false⟩) rfl h,
    hpeek]
  rfl

/-- Only a token list that the end token closes yields an expression. -/
theorem closed_of_parseTokens
    (h : (parseTokens tokens reporter budget).1.map ParseResult.expr = .ok (some e)) :
    tokens.getLast?.any Token.isEnd := by
  cases hclosed : tokens.getLast?.any Token.isEnd with
  | true => rfl
  | false =>
    have hp : Parse.ofTokens tokens reporter = .error .notClosed := dif_neg (by simp [hclosed])
    simp only [parseTokens, hp] at h
    cases h

/-- A token list that the end token closes yields an expression exactly if reading all of it
does. -/
theorem parseTokens_eq_ok_iff (closed : tokens.getLast?.any Token.isEnd) :
    (parseTokens tokens reporter budget).1.map ParseResult.expr = .ok (some e) ↔
      ∃ n, Grammar.readAll budget tokens = .accept e n := by
  refine ⟨fun h => ?_, fun ⟨n, h⟩ => by rw [parseTokens_of_accept closed h]; rfl⟩
  have hp : Parse.ofTokens tokens reporter =
      .ok { tokens, closed, current := 0, reporter, finished := false } := dif_pos closed
  rcases (Grammar.readAll budget tokens).accept_or_fail with ⟨e', n, ho⟩ | ⟨failure, n, ho⟩
  · rw [parseTokens_of_accept closed ho] at h
    cases h
    exact ⟨n, ho⟩
  · have hrun := Parse.run_of_fail (p := ⟨tokens, closed, 0, reporter, false⟩) rfl ho
    simp only [parseTokens, hp, hrun] at h
    cases h

end Tokens

end LoxSyntax
