import LoxSyntax.Parse.Operation
import LoxSyntax.Proofs.Grammar.Blocking
import LoxSyntax.Proofs.Grammar.Bounds
import LoxSyntax.Proofs.Parse.Acceptance
import LoxSyntax.Proofs.Parse.Access

/-! # A parse after any history

Operations may be carried out on a parse in any order, rules and whole parses among the single looks,
and after failures that left the cursor inside of an expression. Whatever the history, the token list
stays as it is, the cursor goes forward and not past the first end token, no look is outside of the
list, and each failure has added one diagnostic, except that of a rule whose nesting is too deep
(`history_sound`). The effect of one operation is
stated once for all of them (`exists_advances`): how many tokens it takes, and which diagnostic it
adds (`Operation.complaint?`). -/

namespace LoxSyntax.Parse

variable {p q : Parse} {operation : Operation} {kind : Kind} {kinds : List Kind}
  {message : String} {taken budget : Nat} {reported : List Diagnostic}

/-! ## The token under the cursor -/

theorem getElem?_current (h : p.current ≤ p.tokens.findIdx Token.isEnd) :
    p.tokens[p.current]? = some p.peek := by
  have hlt : p.current < p.tokens.length := Nat.lt_of_le_of_lt h (findIdx_isEnd_lt p.closed)
  simp [peek, List.getElem?_eq_getElem hlt]

theorem getElem?_previous (h : p.current ≤ p.tokens.findIdx Token.isEnd) (hpos : 0 < p.current) :
    p.tokens[p.current - 1]? = some p.previous := by
  obtain ⟨n, hn⟩ := Nat.exists_eq_add_one.2 hpos
  have hlt : n < p.tokens.length := by
    have : p.tokens.findIdx Token.isEnd ≤ p.tokens.length := List.findIdx_le_length
    omega
  simp [previous, hn, List.getElem?_eq_getElem hlt]

theorem lt_findIdx_isEnd (h : p.current ≤ p.tokens.findIdx Token.isEnd) (hend : p.isAtEnd = false) :
    p.current < p.tokens.findIdx Token.isEnd := by
  apply Nat.lt_of_le_of_ne h
  intro heq
  have hpeek := getElem?_current h
  rw [heq] at hpeek
  have := List.findIdx_of_getElem?_eq_some hpeek
  simp [isAtEnd] at hend
  simp [this] at hend

theorem check_eq_true_iff : p.check kind = true ↔ p.peek.isEnd = false ∧ p.peek.kind = kind := by
  simp [check, isAtEnd]

theorem any_check_iff :
    kinds.any p.check = true ↔ p.peek.isEnd = false ∧ p.peek.kind ∈ kinds := by
  simp only [List.any_eq_true, check_eq_true_iff]
  constructor
  · rintro ⟨kind, hmem, hend, rfl⟩
    exact ⟨hend, hmem⟩
  · rintro ⟨hend, hmem⟩
    exact ⟨_, hmem, hend, rfl⟩

theorem advance_of_not_isEnd (h : p.peek.isEnd = false) :
    p.advance = { p with current := p.current + 1 } := by
  rw [advance, isAtEnd, h]
  rfl

theorem previous_advance (h : p.current ≤ p.tokens.findIdx Token.isEnd)
    (hend : p.peek.isEnd = false) : p.advance.previous = p.peek := by
  rw [advance_of_not_isEnd hend]
  simp [previous, getElem?_current h]

theorem error_eq (t : Token) (message : String) :
    p.error t message = { p with reporter := p.reporter.report (blame t message) } := rfl

/-! ## The effect of one operation -/

/-- A later state of the same parse: some more tokens are taken, up to the first end token at most,
and some more diagnostics are added. -/
structure Advances (p : Parse) (taken : Nat) (reported : List Diagnostic) (q : Parse) : Prop where
  tokens_eq : q.tokens = p.tokens
  current_eq : q.current = p.current + taken
  current_le : p.current ≤ p.tokens.findIdx Token.isEnd → q.current ≤ p.tokens.findIdx Token.isEnd
  diagnostics_eq : q.reporter.diagnostics.toList = p.reporter.diagnostics.toList ++ reported

namespace Advances

theorem refl (p : Parse) : Advances p 0 [] p :=
  ⟨rfl, rfl, id, (List.append_nil _).symm⟩

theorem error (p : Parse) (t : Token) (message : String) :
    Advances p 0 [blame t message] (p.error t message) := by
  refine ⟨rfl, rfl, id, ?_⟩
  simp [error_eq, Reporter.report]

theorem advance (hend : p.peek.isEnd = false) : Advances p 1 [] p.advance := by
  rw [advance_of_not_isEnd hend]
  refine ⟨rfl, rfl, fun h => ?_, (List.append_nil _).symm⟩
  exact lt_findIdx_isEnd h hend

theorem finish (h : Advances { p with finished := true } taken reported q) :
    Advances p taken reported q :=
  ⟨h.tokens_eq, h.current_eq, h.current_le, h.diagnostics_eq⟩

end Advances

/-- A reader does not go past the first end token. -/
theorem current_add_taken_le {reader : Grammar.Reader} (H : reader.Bounded)
    (h : p.current ≤ p.tokens.findIdx Token.isEnd) :
    p.current + (reader p.ahead).taken ≤ p.tokens.findIdx Token.isEnd := by
  have htaken := H p.ahead
  have hdrop := Grammar.findIdx_isEnd_drop h
  rw [ahead] at htaken ⊢
  omega

theorem Advances.of_accept {reader : Grammar.Reader} {e : Expr} (H : reader.Bounded)
    (h : reader p.ahead = .accept e taken) :
    Advances p taken [] { p with current := p.current + taken } :=
  ⟨rfl, rfl, fun hp => by simpa [h, Grammar.Outcome.accept] using current_add_taken_le H hp,
    (List.append_nil _).symm⟩

theorem Advances.of_fail {reader : Grammar.Reader} {failure : Grammar.Failure} (H : reader.Bounded)
    (h : reader p.ahead = .fail failure taken) (ds : List Diagnostic) :
    Advances p taken ds
      { p with current := p.current + taken, reporter := p.reporter.reportAll ds } :=
  ⟨rfl, rfl, fun hp => by simpa [h, Grammar.Outcome.fail] using current_add_taken_le H hp,
    Reporter.toList_diagnostics_reportAll ..⟩

/-- Reading takes tokens before the first end token, and reports if it fails. -/
theorem advances_read {reader : Grammar.Reader} (H : reader.Bounded) :
    (∃ e, (p.read reader).1 = .ok e ∧ Advances p (reader p.ahead).taken [] (p.read reader).2) ∨
      ∃ failure : Grammar.Failure, (p.read reader).1 = .error (.ofFailure failure) ∧
        Advances p (reader p.ahead).taken (complaints (p.read reader).2.peek failure)
          (p.read reader).2 := by
  rcases (reader p.ahead).accept_or_fail with ⟨e, n, ho⟩ | ⟨failure, n, ho⟩
  · rw [read_of_accept ho, ho]
    exact .inl ⟨e, rfl, .of_accept H ho⟩
  · rw [read_of_fail ho, ho]
    exact .inr ⟨failure, rfl, .of_fail H ho _⟩

/-- The diagnostic that an operation adds, given what it comes to: a made error adds one, and so do
a `consume`, a rule and a whole parse that fail, but no rule whose nesting is too deep. A failure is
reported at the token at which the operation stops. -/
def Operation.complaint? : Operation → Except Fault Answer × Parse → Option Diagnostic
  | .error token message, _ => some (blame token message)
  | .apply _, (.error .tooDeep, _) => none
  | .consume .., (.error fault, q) | .apply _, (.error fault, q) => some (blame q.peek fault.message)
  | .run, (.ok (.result result), _) => result.diagnostics.head?
  | _, _ => none

/-- The operations that only look at the tokens or report. -/
def Operation.looks : Operation → Bool
  | .peek | .previous | .isAtEnd | .check _ | .error .. => true
  | _ => false

theorem perform_advance (h : p.current ≤ p.tokens.findIdx Token.isEnd) :
    perform .advance p budget =
      if p.peek.isEnd = false then (.ok (.token p.peek), { p with current := p.current + 1 })
      else (.ok (.token p.previous), p) := by
  simp only [perform]
  split
  · next hend => rw [previous_advance h hend, advance_of_not_isEnd hend]
  · next hend => rw [advance, isAtEnd, if_pos (by simpa using hend)]

theorem perform_matchAny (kinds : List Kind) :
    perform (.matchAny kinds) p budget =
      if p.peek.isEnd = false ∧ p.peek.kind ∈ kinds then
        (.ok (.flag true), { p with current := p.current + 1 })
      else (.ok (.flag false), p) := by
  simp only [perform, matchAny, any_check_iff]
  split
  · next h =>
    rw [advance_of_not_isEnd h.1]
    rfl
  · rfl

theorem perform_consume (h : p.current ≤ p.tokens.findIdx Token.isEnd) (kind : Kind)
    (message : String) :
    perform (.consume kind message) p budget =
      if p.peek.isEnd = false ∧ p.peek.kind = kind then
        (.ok (.token p.peek), { p with current := p.current + 1 })
      else
        (.error (.syntaxError message),
          { p with reporter := p.reporter.report (blame p.peek message) }) := by
  simp only [perform, consume, check_eq_true_iff]
  split
  · next hkind =>
    rw [previous_advance h hkind.1, advance_of_not_isEnd hkind.1]
    rfl
  · rfl

theorem perform_run_of_finished (hf : p.finished = true) :
    perform .run p budget = (.error .alreadyParsed, p) := by
  simp only [perform, run, if_pos hf]
  rfl

/-- The first whole parse comes to an expression, or to the one diagnostic that it adds. -/
theorem perform_run (hf : p.finished = false) (budget : Nat) :
    ∃ result, (perform .run p budget).1 = .ok (.result result) ∧
      ((∃ e, result = ⟨some e, []⟩) ∨ ∃ d, result = ⟨none, [d]⟩) ∧
      Advances p (Grammar.readAll budget p.ahead).taken result.diagnostics
        (perform .run p budget).2 ∧
      (perform .run p budget).2.finished = true := by
  have H := Grammar.bounded_readAll budget
  rcases (Grammar.readAll budget p.ahead).accept_or_fail with ⟨e, n, ho⟩ | ⟨failure, n, ho⟩
  · have hadvances := Advances.of_accept (p := { p with finished := true }) H ho
    simp only [perform, run_of_accept hf ho]
    rw [ho]
    exact ⟨⟨some e, []⟩, rfl, .inl ⟨e, rfl⟩, hadvances.finish, rfl⟩
  · let d := blame { p with current := p.current + n }.peek failure.message
    have hadvances := Advances.of_fail (p := { p with finished := true }) H ho [d]
    rw [Reporter.reportAll_singleton] at hadvances
    simp only [perform, run_of_fail hf ho]
    rw [ho]
    exact ⟨⟨none, [d]⟩, rfl, .inr ⟨d, rfl⟩, hadvances.finish, rfl⟩

/-- A rule that fails complains unless the nesting is too deep. -/
theorem complaint?_ofFailure (rule : Rule) (failure : Grammar.Failure) (q : Parse) :
    ((Operation.apply rule).complaint? (.error (.ofFailure failure), q)).toList =
      complaints q.peek failure := by
  cases failure <;> rfl

/-- Each operation takes tokens before the first end token, none if it only looks, and adds its
complaint. -/
theorem exists_advances (operation : Operation) (p : Parse) (budget : Nat) :
    ∃ taken, Advances p taken (operation.complaint? (perform operation p budget)).toList
        (perform operation p budget).2 ∧
      (operation.looks = true → taken = 0) := by
  cases operation with
  | peek | previous | isAtEnd | check kind => exact ⟨0, .refl p, fun _ => rfl⟩
  | error token message => exact ⟨0, .error p token message, fun _ => rfl⟩
  | advance =>
    cases hend : p.peek.isEnd with
    | true =>
      refine ⟨0, ?_, fun _ => rfl⟩
      simp only [perform, advance, isAtEnd, hend]
      exact .refl p
    | false => exact ⟨1, .advance hend, fun h => absurd h Bool.false_ne_true⟩
  | matchAny kinds =>
    rw [perform_matchAny]
    split
    · next h =>
      have hadvances := Advances.advance h.1
      rw [advance_of_not_isEnd h.1] at hadvances
      exact ⟨1, hadvances, fun h => absurd h Bool.false_ne_true⟩
    · exact ⟨0, .refl p, fun h => absurd h Bool.false_ne_true⟩
  | consume kind message =>
    cases hkind : p.check kind with
    | true =>
      have hend := (check_eq_true_iff.1 hkind).1
      refine ⟨1, ?_, fun h => absurd h Bool.false_ne_true⟩
      simp only [perform, consume, hkind]
      exact .advance hend
    | false =>
      refine ⟨0, ?_, fun h => absurd h Bool.false_ne_true⟩
      simp only [perform, consume, hkind]
      exact .error p p.peek message
  | apply rule =>
    refine ⟨(rule.apply budget p.ahead).taken, ?_, fun h => absurd h Bool.false_ne_true⟩
    have hperform : perform (.apply rule) p budget =
        ((p.read (rule.apply budget)).1.map .expr, (p.read (rule.apply budget)).2) := rfl
    rw [hperform]
    rcases advances_read (p := p) (rule.bounded_apply budget) with
      ⟨e, hresult, hadvances⟩ | ⟨failure, hresult, hadvances⟩
    · rw [hresult]
      exact hadvances
    · rw [hresult]
      exact (complaint?_ofFailure rule failure _).symm ▸ hadvances
  | run =>
    cases hf : p.finished with
    | true =>
      rw [perform_run_of_finished hf]
      exact ⟨0, .refl p, fun h => absurd h Bool.false_ne_true⟩
    | false =>
      obtain ⟨result, hresult, hcases, hadvances, -⟩ := perform_run hf budget
      refine ⟨(Grammar.readAll budget p.ahead).taken, ?_, fun h => absurd h Bool.false_ne_true⟩
      have hpair : perform .run p budget = (.ok (.result result), (perform .run p budget).2) :=
        Prod.ext hresult rfl
      have hcomplaint : (Operation.complaint? .run (perform .run p budget)).toList =
          result.diagnostics := by
        rw [hpair]
        rcases hcases with ⟨e, rfl⟩ | ⟨d, rfl⟩
        · rfl
        · rfl
      rwa [hcomplaint]

theorem finished_perform (h : operation ≠ .run) :
    (perform operation p budget).2.finished = p.finished := by
  cases operation with
  | peek | previous | isAtEnd | check | error => rfl
  | advance =>
    simp only [perform, advance]
    split
    · rfl
    · rfl
  | matchAny kinds =>
    rw [perform_matchAny]
    split
    · rfl
    · rfl
  | consume kind message =>
    simp only [perform, consume, advance]
    split
    · split
      · rfl
      · rfl
    · rfl
  | apply rule =>
    simp only [perform, apply, read]
    split
    · rfl
    · rfl
    · rfl
  | run => exact absurd rfl h

theorem finished_perform_iff (operation : Operation) (p : Parse) (budget : Nat) :
    (perform operation p budget).2.finished = true ↔ operation = .run ∨ p.finished = true := by
  by_cases h : operation = .run
  · subst h
    cases hf : p.finished with
    | true => simp [perform_run_of_finished hf, hf]
    | false =>
      obtain ⟨result, -, -, -, hfinished⟩ := perform_run hf budget
      simp [hfinished]
  · simp [finished_perform h, h]

/-- With a budget that covers the nesting ahead, each rule that fails reports. -/
theorem reporter_apply_of_error (hw : Grammar.nesting p.ahead ≤ budget) (rule : Rule) {fault : Fault}
    (h : (perform (.apply rule) p budget).1 = .error fault) :
    (perform (.apply rule) p budget).2.reporter =
      p.reporter.report (blame (perform (.apply rule) p budget).2.peek fault.message) := by
  rcases (rule.apply budget p.ahead).accept_or_fail with ⟨e, n, ho⟩ | ⟨failure, n, ho⟩
  · rw [perform, apply, read_of_accept ho] at h
    cases h
  · rw [perform, apply, read_of_fail ho] at h ⊢
    cases h
    cases failure with
    | nestingTooDeep => exact absurd ho (Grammar.apply_ne_nestingTooDeep rule hw n)
    | _ => exact Reporter.reportAll_singleton ..

/-! ## Histories -/

/-- A later state of the same parse: nothing is taken back. -/
structure Continues (p q : Parse) : Prop where
  tokens_eq : q.tokens = p.tokens
  current_le : p.current ≤ q.current
  diagnostics : p.reporter.diagnostics.toList <+: q.reporter.diagnostics.toList
  bounded : p.current ≤ p.tokens.findIdx Token.isEnd → q.current ≤ p.tokens.findIdx Token.isEnd

theorem Continues.refl (p : Parse) : Continues p p :=
  ⟨rfl, Nat.le_refl _, List.prefix_rfl, id⟩

theorem Continues.trans {r : Parse} (h : Continues p q) (h' : Continues q r) : Continues p r where
  tokens_eq := h'.tokens_eq.trans h.tokens_eq
  current_le := Nat.le_trans h.current_le h'.current_le
  diagnostics := h.diagnostics.trans h'.diagnostics
  bounded hp := by
    have hq := h.bounded hp
    rw [← h.tokens_eq] at hq ⊢
    exact h'.bounded hq

theorem Advances.continues (h : Advances p taken reported q) : Continues p q :=
  ⟨h.tokens_eq, h.current_eq ▸ Nat.le_add_right .., h.diagnostics_eq ▸ List.prefix_append ..,
    h.current_le⟩

/-- The parse after the operations of a history, some of which may have failed. -/
def performAll (budget : Nat) (history : List Operation) (p : Parse) : Parse :=
  history.foldl (fun p operation => (perform operation p budget).2) p

theorem continues_performAll (budget : Nat) (history : List Operation) (p : Parse) :
    Continues p (performAll budget history p) := by
  induction history generalizing p with
  | nil => exact .refl p
  | cons operation history ih =>
    obtain ⟨taken, hadvances, -⟩ := exists_advances operation p budget
    exact hadvances.continues.trans (ih _)

theorem finished_performAll_iff (budget : Nat) (history : List Operation) (p : Parse) :
    (performAll budget history p).finished = true ↔ .run ∈ history ∨ p.finished = true := by
  induction history generalizing p with
  | nil => simp [performAll]
  | cons operation history ih =>
    rw [performAll, List.foldl_cons, ← performAll, ih, finished_perform_iff, List.mem_cons,
      eq_comm (a := operation), or_left_comm, or_assoc]

/-- What holds of a parse after a history of operations, with the nesting that the budget covers. The
first state is that of a parse about to begin, and the operations may have failed. -/
structure Sound (budget : Nat) (first : Parse) (history : List Operation) (p : Parse) : Prop where
  tokens_eq : p.tokens = first.tokens
  current_le : p.current ≤ first.tokens.findIdx Token.isEnd
  /-- Later operations take back nothing. -/
  continues : ∀ more, Continues p (performAll budget more p)
  peek_mem : p.tokens[p.current]? = some p.peek
  previous_mem : 0 < p.current → p.tokens[p.current - 1]? = some p.previous
  /-- A rule looks at no place outside of the list on its way. -/
  rule_inside : ∀ rule,
    Walk.rule? p.tokens rule budget p.current = some (rule.apply budget p.ahead)
  run_inside : Walk.readAll? p.tokens budget p.current = some (Grammar.readAll budget p.ahead)
  current_of_looks : ∀ operation, operation.looks = true →
    (perform operation p budget).2.current = p.current
  perform_advance : perform .advance p budget =
    if p.peek.isEnd = false then (.ok (.token p.peek), { p with current := p.current + 1 })
    else (.ok (.token p.previous), p)
  perform_matchAny : ∀ kinds, perform (.matchAny kinds) p budget =
    if p.peek.isEnd = false ∧ p.peek.kind ∈ kinds then
      (.ok (.flag true), { p with current := p.current + 1 })
    else (.ok (.flag false), p)
  perform_consume : ∀ kind message, perform (.consume kind message) p budget =
    if p.peek.isEnd = false ∧ p.peek.kind = kind then
      (.ok (.token p.peek), { p with current := p.current + 1 })
    else
      (.error (.syntaxError message),
        { p with reporter := p.reporter.report (blame p.peek message) })
  /-- What fails adds one diagnostic, except a rule whose nesting is too deep, and what succeeds adds
  none. -/
  diagnostics_eq : ∀ operation,
    (perform operation p budget).2.reporter.diagnostics.toList =
      p.reporter.diagnostics.toList ++ (operation.complaint? (perform operation p budget)).toList
  /-- A rule that fails has reported why, at the token at which it stops, if the budget covers the
  nesting of the tokens ahead. -/
  rule_reports : Grammar.nesting p.ahead ≤ budget → ∀ rule fault,
    (perform (.apply rule) p budget).1 = .error fault →
    (perform (.apply rule) p budget).2.reporter =
      p.reporter.report (blame (perform (.apply rule) p budget).2.peek fault.message)
  first_run : .run ∉ history → ∃ result, (perform .run p budget).1 = .ok (.result result) ∧
    ((∃ e, result = ⟨some e, []⟩) ∨ ∃ d, result = ⟨none, [d]⟩)
  run_again : .run ∈ history → perform .run p budget = (.error .alreadyParsed, p)

/-- Whatever is asked of a parse of a token list that an end token closes, in any order and after any
failures, the parse stays sound. -/
theorem history_sound (tokens : List Token) (closed : tokens.getLast?.any Token.isEnd)
    (reporter : Reporter) :
    ∃ first, ofTokens tokens reporter = .ok first ∧ first.tokens = tokens ∧ first.current = 0 ∧
      ∀ budget history, Sound budget first history (performAll budget history first) := by
  let first : Parse := { tokens, closed, current := 0, reporter, finished := false }
  refine ⟨first, dif_pos closed, rfl, rfl, fun budget history => ?_⟩
  have hcontinues := continues_performAll budget history first
  have hfinished := finished_performAll_iff budget history first
  have hcurrent := hcontinues.bounded (Nat.zero_le _)
  generalize performAll budget history first = p at hcontinues hfinished hcurrent
  have hbound : p.current ≤ p.tokens.findIdx Token.isEnd := by rwa [hcontinues.tokens_eq]
  have hahead : Walk.EndAhead p.tokens p.current := exists_isEnd_ahead hbound
  refine
    { tokens_eq := hcontinues.tokens_eq
      current_le := hcurrent
      continues := fun more => continues_performAll budget more p
      peek_mem := getElem?_current hbound
      previous_mem := getElem?_previous hbound
      rule_inside := fun rule => (Walk.agrees_rule rule budget _ hahead).1
      run_inside := (Walk.agrees_readAll budget _ hahead).1
      current_of_looks := ?_
      perform_advance := perform_advance hbound
      perform_matchAny := perform_matchAny
      perform_consume := perform_consume hbound
      diagnostics_eq := ?_
      rule_reports := fun hw rule _ => reporter_apply_of_error hw rule
      first_run := ?_
      run_again := fun hrun => perform_run_of_finished (hfinished.2 (.inl hrun)) }
  · intro operation hlooks
    obtain ⟨taken, hadvances, hzero⟩ := exists_advances operation p budget
    rw [hadvances.current_eq, hzero hlooks, Nat.add_zero]
  · intro operation
    obtain ⟨taken, hadvances, -⟩ := exists_advances operation p budget
    exact hadvances.diagnostics_eq
  · intro hrun
    have hnot : p.finished = false := by
      rw [← Bool.not_eq_true, hfinished]
      simp [hrun, first]
    obtain ⟨result, hresult, hcases, -⟩ := perform_run hnot budget
    exact ⟨result, hresult, hcases⟩

/-- The parse of `a (`, an end token, and the tokens of `b` behind it. -/
def endBetween : Parse where
  tokens := [⟨.identifier, "a", .nil, 1⟩, ⟨.leftParen, "(", .nil, 1⟩, ⟨.eof, "", .nil, 1⟩,
    ⟨.identifier, "b", .nil, 2⟩, ⟨.eof, "", .nil, 2⟩]
  closed := by decide
  current := 0
  reporter := {}
  finished := false

/-- A whole parse, which fails behind `a`, a rule, which fails at the end token, and attempts to go
over that token. -/
def stumbling : List Operation :=
  [.run, .apply .unary, .advance, .matchAny [.eof, .identifier], .run]

theorem history_sound_endBetween :
    endBetween.tokens.getLast?.any Token.isEnd = true ∧
      Sound Grammar.defaultBudget endBetween stumbling
        (performAll Grammar.defaultBudget stumbling endBetween) ∧
      (performAll Grammar.defaultBudget stumbling endBetween).current = 2 ∧
      (performAll Grammar.defaultBudget stumbling endBetween).reporter.size = 2 := by
  have closed : endBetween.tokens.getLast?.any Token.isEnd = true := by decide
  obtain ⟨first, hfirst, -, -, hsound⟩ := history_sound endBetween.tokens closed {}
  obtain rfl : endBetween = first := Except.ok.inj ((dif_pos closed).symm.trans hfirst)
  exact ⟨closed, hsound _ _, by decide +kernel, by decide +kernel⟩

end LoxSyntax.Parse
