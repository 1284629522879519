import LoxSyntax.Proofs.Grammar.Limit
import LoxSyntax.Proofs.Parse.Reading

/-! # The nesting limit of a parse

A parse with the default budget comes to what a parse without a limit comes to, or stops at the first
token whose point is above the budget; which of the two is decided by the greatest weight of the
points that the parse without a limit goes through (`parseTokens_nestingLimited`). A rule called by
itself stops there, too, but leaves the report to the whole parse (`Parse.apply_and_run_tooDeep`). -/

namespace LoxSyntax

open Grammar

/-- Parses a token list as `parseTokens` does, without a limit on the nesting. -/
def parseUnlimited (tokens : List Token) (reporter : Reporter) :
    Except Parse.Fault ParseResult × Reporter :=
  match Parse.ofTokens tokens reporter with
  | .ok p =>
    let (result, p') := p.read readUnlimited
    (.ok ⟨result.toOption, p'.reporter.since p.reporter.size⟩, p'.reporter)
  | .error fault => (.error fault, reporter)

/-- The parse comes to what it comes to without a limit, and does not complain of the nesting. -/
def Unhindered (tokens : List Token) (reporter : Reporter) : Prop :=
  ∃ result reporter', parseTokens tokens reporter = (.ok result, reporter') ∧
    parseUnlimited tokens reporter = (.ok result, reporter') ∧
    ∀ d ∈ result.diagnostics, d.message ≠ "Expression nesting too deep."

/-- The parse comes to no tree, and to one diagnostic at the token behind the first point above the
budget, which is one that the parse without a limit goes through. -/
def StoppedTooDeep (tokens : List Token) (reporter : Reporter) : Prop :=
  ∃ k t w, k ≤ (readUnlimited tokens).taken ∧ tokens[k]? = some t ∧
    weightAt tokens k = some w ∧ defaultBudget < w ∧
    (∀ j < k, ∀ w ∈ weightAt tokens j, w ≤ defaultBudget) ∧
    parseTokens tokens reporter =
      (.ok ⟨none, [Parse.blame t "Expression nesting too deep."]⟩,
        reporter.report (Parse.blame t "Expression nesting too deep."))

/-- How the limit on the nesting shows in a parse. -/
structure NestingLimited (tokens : List Token) (reporter : Reporter) : Prop where
  /-- The points are those up to where the parse without a limit accepts or fails. -/
  isSome_weightAt_iff : ∀ k ≤ tokens.length,
    (weightAt tokens k).isSome ↔ k ≤ (readUnlimited tokens).taken
  /-- The nesting is the greatest weight of these points. -/
  nesting_le_iff : ∀ limit, nesting tokens ≤ limit ↔
    ∀ k ≤ (readUnlimited tokens).taken, ∀ w ∈ weightAt tokens k, w ≤ limit
  within : nesting tokens ≤ 800 → Unhindered tokens reporter
  beyond : 2000 ≤ nesting tokens → StoppedTooDeep tokens reporter
  between : nesting tokens ≤ defaultBudget ∧ Unhindered tokens reporter ∨
    defaultBudget < nesting tokens ∧ StoppedTooDeep tokens reporter
  /-- A chain counts only with what is nested in one of its operands, however many links it has. -/
  chain : ∀ before q (links : List Link) after, Progress.start.run before = some q → q.due = false →
    tokens = before ++ links.flatMap Link.tokens ++ after →
      nesting tokens = max (nesting (before ++ after)) (q.weight + Link.depth links)

variable {tokens us rest : List Token} {reporter : Reporter} {q : Progress} {budget : Nat}

/-- Without a limit no nesting is too deep. -/
theorem readUnlimited_ne_nestingTooDeep (tokens : List Token) (n : Nat) :
    readUnlimited tokens ≠ .fail .nestingTooDeep n := by
  intro h
  have hsettles := settles_readUnlimited tokens
  rw [h] at hsettles
  cases hsettles with
  | fail _ _ hstuck => exact hstuck

theorem parseTokens_eq_parseUnlimited (closed : tokens.getLast?.any Token.isEnd)
    (h : readAll budget tokens = readUnlimited tokens) (reporter : Reporter) :
    parseTokens tokens reporter budget = parseUnlimited tokens reporter := by
  let p : Parse := ⟨tokens, closed, 0, reporter, false⟩
  have hp : Parse.ofTokens tokens reporter = .ok p := dif_pos closed
  rcases (readUnlimited tokens).accept_or_fail with ⟨e, n, ho⟩ | ⟨failure, n, ho⟩
  · have hread : p.read readUnlimited = _ := Parse.read_of_accept ho
    simp only [parseTokens, parseUnlimited, hp, Parse.run_of_accept (p := p) rfl (h.trans ho), hread]
    simp [p, Except.toOption]
  · have hread : p.read readUnlimited = _ := Parse.read_of_fail ho
    simp only [parseTokens, parseUnlimited, hp, Parse.run_of_fail (p := p) rfl (h.trans ho), hread]
    cases failure with
    | nestingTooDeep => exact absurd ho (readUnlimited_ne_nestingTooDeep tokens n)
    | _ => simp [p, Except.toOption, Parse.complaints]

/-- A run of tokens ends before the end token that closes them. -/
theorem exists_getElem?_of_run (closed : (us ++ rest).getLast?.any Token.isEnd)
    (h : Progress.start.run us = some q) : ∃ t, (us ++ rest)[us.length]? = some t := by
  cases rest with
  | nil =>
    rw [List.append_nil] at closed
    obtain ⟨t, ht, hend⟩ := (Option.any_eq_true ..).1 closed
    simp [Progress.isEnd_eq_false_of_run h t (List.mem_of_getLast? ht)] at hend
  | cons t rest => exact ⟨t, by simp⟩

theorem unhindered (closed : tokens.getLast?.any Token.isEnd) (h : nesting tokens ≤ defaultBudget)
    (reporter : Reporter) : Unhindered tokens reporter := by
  have hread := readAll_eq_readUnlimited h
  have hsettles := settles_readUnlimited tokens
  rw [← hread] at hsettles
  have hsame := parseTokens_eq_parseUnlimited closed hread reporter
  generalize ho : readAll defaultBudget tokens = o at hsettles
  cases hsettles with
  | accept htokens hd hend =>
    have hparse : parseTokens tokens reporter = _ := parseTokens_of_accept closed ho
    exact ⟨_, _, hparse, hsame.symm.trans hparse, by simp⟩
  | @fail us rest q failure htokens hrun hstuck =>
    obtain ⟨t, ht⟩ := exists_getElem?_of_run (htokens ▸ closed) hrun
    have hparse : parseTokens tokens reporter = _ := parseTokens_of_fail closed ho (htokens ▸ ht)
    refine ⟨_, _, hparse, hsame.symm.trans hparse, ?_⟩
    have hmessage : failure.message ≠ "Expression nesting too deep." := by
      cases failure with
      | nestingTooDeep => exact hstuck.elim
      | _ => decide
    simpa [Parse.blame] using hmessage

theorem stoppedTooDeep (closed : tokens.getLast?.any Token.isEnd) (h : defaultBudget < nesting tokens)
    (reporter : Reporter) : StoppedTooDeep tokens reporter := by
  obtain ⟨us, rest, q, rfl, hexceeds, hread⟩ := readAll_tooDeep h
  obtain ⟨t, ht⟩ := exists_getElem?_of_run closed hexceeds.run
  have hweight : weightAt (us ++ rest) us.length = some q.weight := by
    rw [weightAt, List.take_left, hexceeds.run]
    rfl
  have hlength : us.length ≤ (us ++ rest).length := by simp
  have htaken := ((settles_readUnlimited _).isSome_weightAt_iff hlength).1 (by rw [hweight]; rfl)
  refine ⟨us.length, t, q.weight, htaken, ht, hweight, hexceeds.lt, fun j hj w hw => ?_,
    parseTokens_of_fail closed hread ht⟩
  rw [weightAt, List.take_append_of_le_length (Nat.le_of_lt hj)] at hw
  obtain ⟨p, hp, rfl⟩ := Option.map_eq_some_iff.1 hw
  exact Progress.under_iff.1 hexceeds.under j hj p hp

/-- Where the nesting ahead is above the budget, an expression and a whole parse stop at the same token.
The rule breaks off and reports nothing, and the whole parse reports it. -/
theorem Parse.apply_and_run_tooDeep (p : Parse) (hf : p.finished = false)
    (h : budget < nesting p.ahead) :
    ∃ n, p.apply .expression budget = (.error .tooDeep, { p with current := p.current + n }) ∧
      ∃ d : Diagnostic, d.message = "Expression nesting too deep." ∧
        p.run budget = (.ok ⟨none, [d]⟩,
          { p with
            current := p.current + n
            reporter := p.reporter.report d
            finished := true }) := by
  obtain ⟨us, rest, q, -, -, hread⟩ := readAll_tooDeep h
  have hrule : Rule.expression.apply budget p.ahead = .fail .nestingTooDeep us.length := by
    rcases Outcome.eq_fail_of_andThen hread with hrule | ⟨e, m, k, -, hfinish, -⟩
    · exact hrule
    · generalize p.ahead.drop m = tokens at hfinish
      cases tokens with
      | nil => cases hfinish
      | cons t tokens =>
        simp only [finish] at hfinish
        split at hfinish <;> cases hfinish
  have happly : p.apply .expression budget = _ := read_of_fail hrule
  rw [complaints, Reporter.reportAll_nil] at happly
  exact ⟨us.length, happly, _, rfl, run_of_fail hf hread⟩

/-- The parse of a token list that an end token closes is limited by the greatest weight of its points,
counting seven for each open parenthesis and one for each unary operator that waits for its operand:
up to a weight of 800 there is no limit, and from 2000 on there is no tree. -/
theorem parseTokens_nestingLimited (closed : tokens.getLast?.any Token.isEnd) (reporter : Reporter) :
    NestingLimited tokens reporter where
  isSome_weightAt_iff k hk := (settles_readUnlimited tokens).isSome_weightAt_iff hk
  nesting_le_iff limit := (settles_readUnlimited tokens).nesting_le_iff
  within h := unhindered closed (le_defaultBudget h) reporter
  beyond h := stoppedTooDeep closed (Nat.lt_of_lt_of_le (by decide) h) reporter
  between := by
    rcases Nat.lt_or_ge defaultBudget (nesting tokens) with h | h
    · exact .inr ⟨h, stoppedTooDeep closed h reporter⟩
    · exact .inl ⟨h, unhindered closed h reporter⟩
  chain := by
    rintro before q links after hrun hdue rfl
    exact nesting_links hrun hdue links after

/-- Opening parentheses and nothing else. -/
def openings (n : Nat) : List Token :=
  List.replicate n ⟨.leftParen, "(", .nil, 1⟩ ++ [⟨.eof, "", .nil, 1⟩]

theorem nesting_openings (n : Nat) : nesting (openings n) = 7 * n := by
  have hpeak : ∀ pending, Progress.peak ⟨true, pending⟩ (openings n) =
      Progress.weight ⟨true, pending⟩ + 7 * n := by
    induction n with
    | zero => exact fun _ => rfl
    | succ n ih =>
      intro pending
      have hopenings : openings (n + 1) = ⟨.leftParen, "(", .nil, 1⟩ :: openings n := rfl
      rw [hopenings, Progress.peak_cons (Progress.step_of_leftParen rfl), ih]
      simp only [Progress.weight, List.foldr_cons, Frame.weight]
      omega
  exact (hpeak []).trans (Nat.zero_add _)

/-- A hundred parentheses are missed an operand, three hundred are too many. -/
theorem parseTokens_nestingLimited_openings :
    (openings 100).getLast?.any Token.isEnd = true ∧ Unhindered (openings 100) {} ∧
      (openings 300).getLast?.any Token.isEnd = true ∧ StoppedTooDeep (openings 300) {} := by
  have hclosed : ∀ n, (openings n).getLast?.any Token.isEnd = true := by
    intro n
    simp [openings, Token.isEnd]
  have hfew := parseTokens_nestingLimited (hclosed 100) {}
  have hmany := parseTokens_nestingLimited (hclosed 300) {}
  refine ⟨hclosed 100, hfew.within ?_, hclosed 300, hmany.beyond ?_⟩
  · rw [nesting_openings]
    decide
  · rw [nesting_openings]
    decide

end LoxSyntax
