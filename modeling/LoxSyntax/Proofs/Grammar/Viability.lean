import LoxSyntax.Proofs.Grammar.Blocking

/-! # Beginnings of sentences

A token list is viable if some sentence begins with it. Every progress can be completed
(`Progress.exists_run_settle`), so the viable lists are exactly those that the machine runs through
(`viable_iff`). What the progress leaves open shows in the tokens themselves: an operand is due
exactly after an operator or an opening parenthesis (`OperandDue`), and the pending parentheses are
those that have not been closed (`Unclosed`). -/

namespace LoxSyntax

namespace Grammar

/-- The tokens begin some sentence. -/
def Viable (tokens : List Token) : Prop :=
  ∃ others e, Derives .expression (tokens ++ others) e

/-- An operand has to come next: there are no tokens, or the last is an operator or an opening
parenthesis. -/
def OperandDue (tokens : List Token) : Prop :=
  ∀ t ∈ tokens.getLast?,
    t.kind ∈ Rule.expression.chained ∨ t.kind ∈ Rule.unaryOperators ∨ t.kind = .leftParen

/-- More parentheses have been opened than closed. -/
def Unclosed (tokens : List Token) : Prop :=
  tokens.countP (·.kind = .rightParen) < tokens.countP (·.kind = .leftParen)

instance (tokens : List Token) : Decidable (OperandDue tokens) :=
  inferInstanceAs (Decidable (∀ t ∈ tokens.getLast?, _))

instance (tokens : List Token) : Decidable (Unclosed tokens) :=
  inferInstanceAs (Decidable (_ < _))

namespace Progress

variable {p q : Progress} {t : Token} {us : List Token} {pending : List Frame}

/-! ## Completion -/

/-- Closing parentheses complete what follows a settled operand. -/
theorem exists_run_settle_of_pending (pending : List Frame) :
    ∃ ts, run (settle pending) ts = some (settle []) := by
  induction pending with
  | nil => exact ⟨[], rfl⟩
  | cons frame outer ih =>
    obtain ⟨ts, h⟩ := ih
    cases frame with
    | unary => exact ⟨ts, h⟩
    | parenthesis =>
      refine ⟨⟨.rightParen, ")", .nil, 1⟩ :: ts, ?_⟩
      rw [settle_parenthesis, run_cons, step_of_rightParen rfl]
      exact h

theorem exists_run_settle (p : Progress) : ∃ ts, run p ts = some (settle []) := by
  obtain ⟨due, pending⟩ := p
  obtain ⟨ts, h⟩ := exists_run_settle_of_pending pending
  have hleaf : run ⟨true, pending⟩ (⟨.nilWord, "nil", .nil, 1⟩ :: ts) = some (settle []) := by
    rw [run_cons, step_of_leaf? rfl]
    exact h
  cases due with
  | true => exact ⟨_, hleaf⟩
  | false =>
    refine ⟨⟨.plus, "+", .nil, 1⟩ :: ⟨.nilWord, "nil", .nil, 1⟩ :: ts, ?_⟩
    rw [run_cons, step_of_chained (by decide)]
    exact hleaf

/-! ## What is open, in terms of the tokens -/

theorem due_iff_of_step (h : p.step t = some q) :
    q.due = true ↔
      t.kind ∈ Rule.expression.chained ∨ t.kind ∈ Rule.unaryOperators ∨ t.kind = .leftParen := by
  rcases step_cases h with
    ⟨-, hk, rfl⟩ | ⟨-, hk, rfl⟩ | ⟨-, ⟨e, hk⟩, rfl⟩ | ⟨-, hk, rfl⟩ | ⟨-, hk, outer, -, rfl⟩
  · simp [hk]
  · simp [hk]
  · have apart : ∀ kind ∈ Kind.leaves, ¬ (kind ∈ Rule.expression.chained ∨
        kind ∈ Rule.unaryOperators ∨ kind = .leftParen) := by decide
    simpa [settle] using apart _ (Token.kind_mem_leaves hk)
  · simp [hk]
  · simp only [settle, hk, Bool.false_eq_true, false_iff]
    decide

theorem due_iff_operandDue (h : start.run us = some q) : q.due = true ↔ OperandDue us := by
  rcases List.eq_nil_or_concat us with rfl | ⟨init, t, rfl⟩
  · cases h
    simp [start, OperandDue]
  · rw [List.concat_eq_append, run_append] at h
    obtain ⟨r, -, hstep⟩ := Option.bind_eq_some_iff.mp h
    have hstep : r.step t = some q := by simpa using hstep
    rw [due_iff_of_step hstep]
    simp [OperandDue]

@[simp] theorem count_parenthesis_settle :
    (settle pending).pending.count .parenthesis = pending.count .parenthesis := by
  induction pending with
  | nil => rfl
  | cons frame pending ih =>
    cases frame with
    | unary => simpa using ih
    | parenthesis => rfl

theorem count_parenthesis_of_step (h : p.step t = some q) :
    q.pending.count .parenthesis + [t].countP (·.kind = .rightParen) =
      p.pending.count .parenthesis + [t].countP (·.kind = .leftParen) := by
  -- Only the two parentheses count, and each of the other steps takes another kind.
  have apart : ∀ kind ∈ Rule.unaryOperators ++ Kind.leaves ++ Rule.expression.chained,
      kind ≠ .leftParen ∧ kind ≠ .rightParen := by decide
  rcases step_cases h with
    ⟨-, hk, rfl⟩ | ⟨-, hk, rfl⟩ | ⟨-, ⟨e, hk⟩, rfl⟩ | ⟨-, hk, rfl⟩ | ⟨-, hk, outer, hp, rfl⟩
  · simp [apart _ (List.mem_append_left _ (List.mem_append_left _ hk))]
  · simp [hk]
  · simp [apart _ (List.mem_append_left _ (List.mem_append_right _ (Token.kind_mem_leaves hk)))]
  · simp [apart _ (List.mem_append_right _ hk)]
  · simp [hk, hp]

/-- The pending parentheses are those that the tokens open and do not close. -/
theorem count_parenthesis_of_run (h : p.run us = some q) :
    q.pending.count .parenthesis + us.countP (·.kind = .rightParen) =
      p.pending.count .parenthesis + us.countP (·.kind = .leftParen) := by
  induction us generalizing p with
  | nil =>
    cases h
    rfl
  | cons u us ih =>
    obtain ⟨r, hr, h⟩ := Option.bind_eq_some_iff.mp h
    have hstep := count_parenthesis_of_step hr
    have hrun := ih h
    rw [← List.singleton_append, List.countP_append, List.countP_append]
    omega

theorem mem_pending_iff_unclosed (h : start.run us = some q) :
    .parenthesis ∈ q.pending ↔ Unclosed us := by
  have hcount := count_parenthesis_of_run h
  rw [← List.count_pos_iff, Unclosed]
  simp only [start, List.count_nil] at hcount
  omega

end Progress

/-- The viable token lists are those that the machine runs through. -/
theorem viable_iff {tokens : List Token} :
    Viable tokens ↔ ∃ q, Progress.start.run tokens = some q := by
  constructor
  · rintro ⟨others, e, h⟩
    have hrun := Progress.run_of_derives h []
    rw [Progress.run_append] at hrun
    obtain ⟨q, hq, -⟩ := Option.bind_eq_some_iff.mp hrun
    exact ⟨q, hq⟩
  · rintro ⟨q, hq⟩
    obtain ⟨others, hothers⟩ := q.exists_run_settle
    refine ⟨others, run_start_eq_settle_iff.1 ?_⟩
    rw [Progress.run_append, hq]
    exact hothers

end Grammar

end LoxSyntax
