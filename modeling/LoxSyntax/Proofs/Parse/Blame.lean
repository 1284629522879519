import LoxSyntax.Proofs.Grammar.Viability
import LoxSyntax.Proofs.Parse.Reading

/-! # What a failed parse blames

A parse that fails within the nesting limit stops at the first token that no sentence allows
(`Parse.run_blames_first_impossible_token`): the tokens before it begin a sentence, and with it they
do not. The one diagnostic is at that token, and its message says what was due there. -/

namespace LoxSyntax

namespace Grammar

open Progress

variable {q : Progress} {us rest : List Token} {t : Token} {failure : Failure}

variable {budget n : Nat} {tokens : List Token}

/-- Reading all of a token list that contains an end token fails, within the budget, at the first
token that no sentence allows. -/
theorem readAll_blames (h : readAll budget tokens = .fail failure n)
    (hend : ∃ t ∈ tokens, t.isEnd = true) (hw : nesting tokens ≤ budget) :
    ∃ t, tokens[n]? = some t ∧ Viable (tokens.take n) ∧ ¬ Viable (tokens.take (n + 1)) ∧
      (t.isEnd = true → ¬ ∃ e, Derives .expression (tokens.take n) e) ∧
      failure.message =
        if OperandDue (tokens.take n) then "Expect expression."
        else if Unclosed (tokens.take n) then "Expect ')' after expression."
        else "Expect end of expression." := by
  obtain ⟨us, rest, q, rfl, rfl, hq, -, hblocked⟩ := readAll_blocked h
  have hstuck : Stuck q rest.head? failure := by
    cases hblocked with
    | tooDeep hlt => exact absurd (Nat.le_trans (weight_le_peak_of_run hq) hw) (Nat.not_le.2 hlt)
    | stuck _ hstuck => exact hstuck
  cases rest with
  | nil =>
    -- The machine runs past no end token.
    obtain ⟨t, ht, hend⟩ := hend
    rw [List.append_nil] at ht
    simp [isEnd_eq_false_of_run hq t ht] at hend
  | cons t rest =>
    have hnext : (us ++ t :: rest).take (us.length + 1) = us ++ [t] :=
      List.take_length_add_append 1
    refine ⟨t, by simp, ?_, ?_, fun ht he => ?_, ?_⟩
    · rw [List.take_left]
      exact viable_iff.2 ⟨q, hq⟩
    · rw [hnext, viable_iff]
      rintro ⟨r, hr⟩
      rw [run_append, hq] at hr
      simp [hstuck.step_eq_none t rfl] at hr
    · rw [List.take_left] at he
      have hsettle := run_start_eq_settle_iff.2 he
      exact hstuck.ne_settle_nil (by simpa using ht) (Option.some.inj (hq.symm.trans hsettle))
    · rw [List.take_left, hstuck.message_eq]
      simp only [due_iff_operandDue hq, mem_pending_iff_unclosed hq]

end Grammar

namespace Parse

open Grammar

/-- A failed parse from the first token, with a nesting of at most 800, blames the earliest possible
token with the right message. With `k` the final cursor and `t` the token there, the tokens before
`t` begin a sentence; with `t` they begin none, and if `t` is an end token they are none. The one
diagnostic is at `t`. -/
theorem run_blames_first_impossible_token (p : Parse) (hc : p.current = 0)
    (hf : p.finished = false) (hw : nesting p.tokens ≤ 800)
    (hfail : ∀ e, (p.run defaultBudget).1.map ParseResult.expr ≠ .ok (some e)) :
    ∃ k t message, p.tokens[k]? = some t ∧
      p.run defaultBudget = (.ok ⟨none, [blame t message]⟩,
        { p with
          current := k
          reporter := p.reporter.report (blame t message)
          finished := true }) ∧
      Viable (p.tokens.take k) ∧
      (t.isEnd = false → ¬ Viable (p.tokens.take (k + 1))) ∧
      (t.isEnd = true → ¬ ∃ e, Derives .expression (p.tokens.take k) e) ∧
      message =
        if OperandDue (p.tokens.take k) then "Expect expression."
        else if Unclosed (p.tokens.take k) then "Expect ')' after expression."
        else "Expect end of expression." := by
  have hahead : p.ahead = p.tokens := by rw [ahead, hc, List.drop_zero]
  rcases (readAll defaultBudget p.ahead).accept_or_fail with ⟨e, n, ho⟩ | ⟨failure, n, ho⟩
  · exact absurd (by rw [run_of_accept hf ho]; rfl) (hfail e)
  obtain ⟨t, hget, hviable, hnext, hsentence, hmessage⟩ := readAll_blames (hahead ▸ ho)
    p.exists_isEnd (le_defaultBudget hw)
  have hpeek : { p with current := p.current + n }.peek = t :=
    peek_eq_of_getElem? (by simpa [hc] using hget)
  refine ⟨n, t, failure.message, hget, ?_, hviable, fun _ => hnext, hsentence, hmessage⟩
  rw [run_of_fail hf ho, hpeek, hc, Nat.zero_add]

/-- The parse of `(a +) b`, in which an operand is missing before the closing parenthesis. -/
def missingOperand : Parse where
  tokens := [⟨.leftParen, "(", .nil, 1⟩, ⟨.identifier, "a", .nil, 1⟩, ⟨.plus, "+", .nil, 1⟩,
    ⟨.rightParen, ")", .nil, 1⟩, ⟨.identifier, "b", .nil, 1⟩, ⟨.eof, "", .nil, 1⟩]
  closed := by decide
  current := 0
  reporter := {}
  finished := false

theorem run_blames_first_impossible_token_missingOperand :
    nesting missingOperand.tokens ≤ 800 ∧
      (∀ e, (missingOperand.run defaultBudget).1.map ParseResult.expr ≠ .ok (some e)) ∧
      Viable (missingOperand.tokens.take 3) ∧ ¬ Viable (missingOperand.tokens.take 4) := by
  have hw : nesting missingOperand.tokens ≤ 800 := by decide
  have hread : readAll defaultBudget missingOperand.ahead = .fail .operandMissing 3 := by cbv
  have hrun := run_of_fail (p := missingOperand) rfl hread
  have hfail : ∀ e, (missingOperand.run defaultBudget).1.map ParseResult.expr ≠ .ok (some e) := by
    intro e h
    simp [hrun, Except.map] at h
  obtain ⟨k, t, message, hget, hrun', hviable, hnext, -⟩ :=
    run_blames_first_impossible_token missingOperand rfl rfl hw hfail
  obtain rfl : 3 = k := congrArg (fun r => Parse.current r.2) (hrun.symm.trans hrun')
  cases hget
  exact ⟨hw, hfail, hviable, hnext rfl⟩

end Parse

end LoxSyntax
