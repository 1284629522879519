import LoxSyntax.Proofs.Grammar.Recognition
import LoxSyntax.Proofs.Grammar.Weight

/-! # Readers fail where nothing can go on

A reader that fails has taken a run of `Progress` at points within the budget, and at the first token
that it did not take the progress is stuck or has exceeded the budget (`Reader.Blocks`). What is open
at that point decides the failure (`Stuck`). Together with `Progress.run_of_derives` this makes the
machine and the grammar agree (`Progress.run_start_eq_settle_iff`): a token list is a sentence
exactly if it is run to its end with nothing left open. -/

namespace LoxSyntax

namespace Grammar

open Progress

variable {rule tighter : Rule} {budget n : Nat} {tokens us rest : List Token} {e left : Expr}
  {operand : Reader} {pending : List Frame} {p q : Progress} {failure : Failure} {t : Token}

/-- The next token cannot come next at the progress, and what is open there is the failure's. -/
def Stuck (q : Progress) (next : Option Token) : Failure → Prop
  | .nestingTooDeep => False
  | .operandMissing => q.due = true ∧ ∀ t ∈ next, q.step t = none
  | .parenthesisUnclosed =>
    q.due = false ∧ .parenthesis ∈ q.pending ∧ ∀ t ∈ next, q.step t = none
  | .endMissing =>
    q.due = false ∧ q.pending = [] ∧ ∃ t ∈ next, t.isEnd = false ∧ q.step t = none

namespace Stuck

variable {next : Option Token}

theorem step_eq_none (h : Stuck q next failure) : ∀ t ∈ next, q.step t = none := by
  intro t ht
  cases failure with
  | nestingTooDeep => exact h.elim
  | operandMissing => exact h.2 t ht
  | parenthesisUnclosed => exact h.2.2 t ht
  | endMissing =>
    obtain ⟨-, -, u, hu, -, hstep⟩ := h
    cases Option.some.inj (hu.symm.trans ht)
    exact hstep

theorem ne_settle_nil (h : Stuck q next failure) (hend : ∀ t ∈ next, t.isEnd = true) :
    q ≠ settle [] := by
  rintro rfl
  cases failure with
  | nestingTooDeep => exact h
  | operandMissing => simp [Stuck] at h
  | parenthesisUnclosed => simp [Stuck] at h
  | endMissing =>
    obtain ⟨-, -, u, hu, hnot, -⟩ := h
    simp [hend u hu] at hnot

theorem message_eq (h : Stuck q next failure) :
    failure.message =
      if q.due then "Expect expression."
      else if .parenthesis ∈ q.pending then "Expect ')' after expression."
      else "Expect end of expression." := by
  cases failure with
  | nestingTooDeep => exact h.elim
  | operandMissing => simp [Failure.message, h.1]
  | parenthesisUnclosed => simp [Failure.message, h.1, h.2.1]
  | endMissing => simp [Failure.message, h.1, h.2.1]

/-- What is open decides the failure. -/
theorem unique {failure' : Failure} (h : Stuck q next failure) (h' : Stuck q next failure') :
    failure = failure' := by
  cases failure <;> cases failure' <;> simp_all [Stuck]

/-- What is stuck runs to no end. -/
theorem run_ne (h : Stuck q rest.head? failure) : run q rest ≠ some (settle []) := by
  cases rest with
  | nil =>
    intro hrun
    exact h.ne_settle_nil (fun t ht => nomatch ht) (Option.some.inj hrun)
  | cons t rest => simp [h.step_eq_none t rfl]

end Stuck

/-- Why reading stops at a progress, given the next token: its nesting exceeds the limit, or it is
stuck within the limit. -/
inductive Blocked (limit : Nat) (q : Progress) (next : Option Token) : Failure → Prop
  | tooDeep : limit < q.weight → Blocked limit q next .nestingTooDeep
  | stuck {failure : Failure} : q.weight ≤ limit → Stuck q next failure → Blocked limit q next failure

/-- The first `n` tokens are taken within the limit, up to a point at which reading is blocked. -/
def Halts (limit : Nat) (p : Progress) (tokens : List Token) (failure : Failure) (n : Nat) : Prop :=
  ∃ us rest q, tokens = us ++ rest ∧ us.length = n ∧ run p us = some q ∧ p.Under limit us ∧
    Blocked limit q rest.head? failure

/-- A failing reader has halted in this way. -/
def Reader.Blocks (reader : Reader) (budget : Nat) (pending : List Frame) (tokens : List Token) :
    Prop :=
  ∀ {failure n}, reader tokens = .fail failure n →
    Halts (weight ⟨true, pending⟩ + budget) ⟨true, pending⟩ tokens failure n

namespace Halts

variable {limit : Nat}

theorem here (h : Blocked limit p tokens.head? failure) : Halts limit p tokens failure 0 :=
  ⟨[], tokens, p, rfl, rfl, rfl, trivial, h⟩

/-- What is taken before goes in front. -/
theorem append (h : Halts limit q rest failure n) (hrun : run p us = some q)
    (hus : p.Under limit us) : Halts limit p (us ++ rest) failure (us.length + n) := by
  obtain ⟨vs, rest, r, rfl, rfl, hr, hvs, hblocked⟩ := h
  refine ⟨us ++ vs, rest, r, (List.append_assoc ..).symm, List.length_append, ?_,
    (under_append hrun).2 ⟨hus, hvs⟩, hblocked⟩
  rw [run_append, hrun, Option.bind_some, hr]

theorem cons (h : Halts limit q rest failure n) (hstep : step p t = some q)
    (hp : p.weight ≤ limit) : Halts limit p (t :: rest) failure (n + 1) := by
  have hrun : run p [t] = some q := by rw [run_cons, hstep]; rfl
  have hcons := h.append hrun ((under_cons hstep).2 ⟨hp, trivial⟩)
  rwa [List.length_singleton, Nat.add_comm] at hcons

end Halts

theorem Outcome.eq_fail_of_shift {o : Outcome} {m : Nat} (h : o.shift m = fail failure n) :
    ∃ k, o = fail failure k ∧ m + k = n := by
  obtain ⟨result, taken⟩ := o
  simp only [shift, fail, mk.injEq] at h
  exact ⟨taken, by simp [fail, h.1], h.2⟩

theorem Outcome.eq_fail_of_andThen {o : Outcome} {next : Expr → Reader}
    (h : o.andThen next tokens = fail failure n) :
    o = fail failure n ∨ ∃ e m k, o = accept e m ∧ next e (tokens.drop m) = fail failure k ∧
      m + k = n := by
  obtain ⟨result, taken⟩ := o
  cases result with
  | error failure => exact .inl h
  | ok e =>
    obtain ⟨k, hk, rfl⟩ := eq_fail_of_shift h
    exact .inr ⟨e, taken, k, rfl, hk, rfl⟩

/-! ## Chains -/

theorem Reader.Exact.chainRest_blocks (H : operand.Exact tighter budget) (hs : Settled pending)
    (hblocks : ∀ tokens, operand.Blocks budget pending tokens)
    (h : chainRest rule.operators operand left tokens = .fail failure n) :
    Halts (weight ⟨true, pending⟩ + budget) ⟨false, pending⟩ tokens failure n := by
  have hle : weight ⟨false, pending⟩ ≤ weight ⟨true, pending⟩ + budget := Nat.le_add_right ..
  have hstep : ∀ {operator : Token}, operator.kind ∈ rule.operators →
      step ⟨false, pending⟩ operator = some ⟨true, pending⟩ :=
    fun hop => step_of_chained (Rule.mem_expression_chained_of_mem_operators hop)
  fun_induction chainRest rule.operators operand left tokens generalizing n with
  | case1 left => cases h
  | case2 left operator tail hop right taken hr ih =>
    obtain ⟨k, hk, rfl⟩ := Outcome.eq_fail_of_shift h
    obtain ⟨rs, rest, rfl, rfl, hd, hb, -⟩ := H.sound hr
    rw [List.drop_left] at hk ih
    have hunder := under_of_derives hd hs (Nat.add_le_add_left hb _)
    have hoperand := ((ih hk).append (run_settled_of_derives hd hs) hunder).cons (hstep hop) hle
    rwa [Nat.add_right_comm] at hoperand
  | case3 left operator tail hop failure' taken hr =>
    cases h
    exact (hblocks _ hr).cons (hstep hop) hle
  | case4 left operator tail hop => cases h

theorem Reader.Exact.chain_blocks (H : operand.Exact tighter budget) (rule : Rule)
    (hs : Settled pending) (hblocks : ∀ tokens, operand.Blocks budget pending tokens)
    (tokens : List Token) :
    Reader.Blocks (Grammar.chain rule.operators operand) budget pending tokens := by
  intro failure n h
  rcases Outcome.eq_fail_of_andThen h with h | ⟨left, m, k, hl, hr, rfl⟩
  · exact hblocks _ h
  · obtain ⟨ls, rest, rfl, rfl, hd, hb, -⟩ := H.sound hl
    rw [List.drop_left] at hr
    exact (H.chainRest_blocks hs hblocks hr).append (run_settled_of_derives hd hs)
      (under_of_derives hd hs (Nat.add_le_add_left hb _))

section Levels

variable (H : operand.Exact .unary budget) (hs : Settled pending)
  (hblocks : ∀ tokens, operand.Blocks budget pending tokens)

include H hs hblocks

theorem factorOf_blocks (tokens : List Token) :
    Reader.Blocks (factorOf operand) budget pending tokens :=
  H.chain_blocks .factor hs hblocks tokens

theorem termOf_blocks (tokens : List Token) :
    Reader.Blocks (termOf operand) budget pending tokens :=
  (exact_factorOf H).chain_blocks .term hs (factorOf_blocks H hs hblocks) tokens

theorem comparisonOf_blocks (tokens : List Token) :
    Reader.Blocks (comparisonOf operand) budget pending tokens :=
  (exact_termOf H).chain_blocks .comparison hs (termOf_blocks H hs hblocks) tokens

theorem equalityOf_blocks (tokens : List Token) :
    Reader.Blocks (equalityOf operand) budget pending tokens :=
  (exact_comparisonOf H).chain_blocks .equality hs (comparisonOf_blocks H hs hblocks) tokens

end Levels

/-! ## Primary expressions and unary operators -/

theorem eq_fail_of_close {line : Int} {inner : Expr} (h : close line inner tokens = .fail failure n) :
    failure = .parenthesisUnclosed ∧ n = 0 ∧ ∀ t ∈ tokens.head?, t.kind ≠ .rightParen := by
  cases tokens with
  | nil =>
    cases h
    simp
  | cons t rest =>
    simp only [close] at h
    split at h
    · cases h
    · next ht =>
      cases h
      simpa using ht

theorem primaryWith_eq_fail {inner : Option Reader} (hp : t.kind ≠ .leftParen)
    (hl : t.leaf? = none) : primaryWith inner (t :: rest) = .fail .operandMissing 0 := by
  simp only [Token.leaf?] at hl
  simp only [primaryWith]
  split at hl <;> simp_all

/-- A failing primary expression begins with no operand, or with a parenthesis that the budget or
what follows does not allow. -/
theorem primaryWith_blocks {inner : Option Reader}
    (hhead : ∀ t ∈ tokens.head?, t.kind ∉ Rule.unaryOperators)
    (hsome : ∀ read ∈ inner, 7 ≤ budget ∧ Reader.Exact read .expression (budget - 7) ∧
      ∀ tokens, Reader.Blocks read (budget - 7) (.parenthesis :: pending) tokens)
    (hnone : inner = none → budget < 7) :
    Reader.Blocks (primaryWith inner) budget pending tokens := by
  intro failure n h
  have hle : weight ⟨true, pending⟩ ≤ weight ⟨true, pending⟩ + budget := Nat.le_add_right ..
  have hgroup : weight ⟨true, .parenthesis :: pending⟩ = weight ⟨true, pending⟩ + 7 := Nat.add_comm ..
  cases tokens with
  | nil =>
    cases h
    exact .here (.stuck hle ⟨rfl, by simp⟩)
  | cons t rest =>
    have hu : t.kind ∉ Rule.unaryOperators := hhead t (by simp)
    by_cases ho : t.kind = .leftParen
    · have hstep : step ⟨true, pending⟩ t = _ := step_of_leftParen ho
      cases inner with
      | none =>
        have hb := hnone rfl
        simp only [primaryWith, ho] at h
        cases h
        have hexceeded : weight ⟨true, pending⟩ + budget < weight ⟨true, .parenthesis :: pending⟩ := by
          omega
        exact (Halts.here (.tooDeep hexceeded)).cons hstep hle
      | some read =>
        obtain ⟨hb, H, hblocks⟩ := hsome read rfl
        have hlimit : weight ⟨true, .parenthesis :: pending⟩ + (budget - 7) =
            weight ⟨true, pending⟩ + budget := by omega
        rw [primaryWith_of_leftParen ho] at h
        obtain ⟨k, hk, rfl⟩ := Outcome.eq_fail_of_shift h
        rw [Nat.add_comm 1 k]
        refine .cons ?_ hstep hle
        rw [← hlimit]
        rcases Outcome.eq_fail_of_andThen hk with hread | ⟨e, m, k, hread, hclose, rfl⟩
        · exact hblocks _ hread
        · obtain ⟨us, rest, rfl, rfl, hd, hn, hstops⟩ := H.sound hread
          rw [List.drop_left] at hclose
          obtain ⟨rfl, rfl, hnext⟩ := eq_fail_of_close hclose
          have hs : Settled (.parenthesis :: pending) := rfl
          have hle : weight ⟨false, .parenthesis :: pending⟩ ≤
              weight ⟨true, .parenthesis :: pending⟩ + (budget - 7) := Nat.le_add_right ..
          have hstuck : ∀ t ∈ rest.head?, step ⟨false, .parenthesis :: pending⟩ t = none :=
            fun t ht => step_settled_eq_none (hstops t ht) fun h => absurd h (hnext t ht)
          exact .append (.here (.stuck hle ⟨rfl, by simp, hstuck⟩)) (run_settled_of_derives hd hs)
            (under_of_derives hd hs (Nat.add_le_add_left hn _))
    · cases hl : t.leaf? with
      | some e => cases (primaryWith_of_leaf? hl).symm.trans h
      | none =>
        cases (primaryWith_eq_fail ho hl).symm.trans h
        exact .here (.stuck hle ⟨rfl, by simpa using step_due_eq_none hu ho hl⟩)

theorem primary_blocks (hhead : ∀ t ∈ tokens.head?, t.kind ∉ Rule.unaryOperators)
    (hgroup : 7 ≤ budget → ∀ tokens, Reader.Blocks (unary (budget - 7)) (budget - 7)
      (.parenthesis :: pending) tokens) :
    Reader.Blocks (primary budget) budget pending tokens := by
  by_cases hb : 7 ≤ budget
  · have H := Rule.exact_apply .unary (budget - 7)
    rw [primary_of_seven_le hb]
    refine primaryWith_blocks hhead (fun read hread => ?_) (by simp)
    cases hread
    exact ⟨hb, (exact_equalityOf H).expression, equalityOf_blocks H rfl (hgroup hb)⟩
  · rw [primary_of_lt_seven (by omega)]
    exact primaryWith_blocks hhead (by simp) fun _ => by omega

theorem eq_fail_of_applyUnary {operator : Token} {o : Outcome}
    (h : applyUnary operator o = .fail failure n) :
    ∃ k, o = .fail failure k ∧ n = k + 1 := by
  obtain ⟨result, taken⟩ := o
  cases result with
  | ok right => cases h
  | error failure =>
    cases h
    exact ⟨taken, rfl, rfl⟩

/-- A failing unary expression is blocked in its primary expression, by induction on the budget of
the operators and parentheses before that. -/
theorem unary_blocks (budget : Nat) (pending : List Frame) (tokens : List Token) :
    Reader.Blocks (unary budget) budget pending tokens := by
  induction budget using Nat.strongRecOn generalizing pending tokens with
  | ind budget ih =>
    intro failure n h
    by_cases ht : ∀ t ∈ tokens.head?, t.kind ∉ Rule.unaryOperators
    · rw [unary_of_not_mem ht] at h
      exact primary_blocks ht (fun hb => ih (budget - 7) (by omega) _) h
    · obtain ⟨operator, rest, rfl, hop⟩ := exists_unary_cons ht
      have hstep : step ⟨true, pending⟩ operator = _ := step_of_unary hop
      have hle : weight ⟨true, pending⟩ ≤ weight ⟨true, pending⟩ + budget := Nat.le_add_right ..
      have hunary : weight ⟨true, .unary :: pending⟩ = weight ⟨true, pending⟩ + 1 := Nat.add_comm ..
      cases budget with
      | zero =>
        cases (unary_zero_of_mem hop).symm.trans h
        have hexceeded : weight ⟨true, pending⟩ + 0 < weight ⟨true, .unary :: pending⟩ := by omega
        exact (Halts.here (.tooDeep hexceeded)).cons hstep hle
      | succ budget =>
        rw [unary_succ_of_mem hop] at h
        obtain ⟨k, hk, rfl⟩ := eq_fail_of_applyUnary h
        have hlimit : weight ⟨true, .unary :: pending⟩ + budget =
            weight ⟨true, pending⟩ + (budget + 1) := by omega
        refine .cons ?_ hstep hle
        rw [← hlimit]
        exact ih budget (Nat.lt_succ_self _) (.unary :: pending) rest hk

theorem primary_of_mem_unaryOperators (h : t.kind ∈ Rule.unaryOperators) :
    primary budget (t :: rest) = .fail .operandMissing 0 := by
  have hp : t.kind ≠ .leftParen := fun hk => absurd (hk ▸ h) (by decide)
  have hl : t.leaf? = none :=
    Option.eq_none_iff_forall_not_mem.2 fun _ he => Token.not_mem_unaryOperators_of_leaf? he h
  by_cases hb : 7 ≤ budget
  · rw [primary_of_seven_le hb, primaryWith_eq_fail hp hl]
  · rw [primary_of_lt_seven (Nat.lt_of_not_le hb), primaryWith_eq_fail hp hl]

/-! ## Rules -/

/-- A failing rule is blocked, except that the machine would go on at a unary operator, where no
primary expression begins. -/
theorem blocks_apply (rule : Rule) (h : rule ≠ .primary) (budget : Nat) :
    ∀ tokens, Reader.Blocks (rule.apply budget) budget [] tokens := by
  have H := Rule.exact_apply .unary budget
  have hs : Settled [] := rfl
  cases rule with
  | expression | equality => exact equalityOf_blocks H hs (unary_blocks budget [])
  | comparison => exact comparisonOf_blocks H hs (unary_blocks budget [])
  | term => exact termOf_blocks H hs (unary_blocks budget [])
  | factor => exact factorOf_blocks H hs (unary_blocks budget [])
  | unary => exact unary_blocks budget []
  | primary => exact absurd rfl h

/-- A reader that is blocked where it fails does not exceed a budget that covers the nesting. -/
theorem Reader.ne_nestingTooDeep {reader : Reader}
    (hblocks : ∀ tokens, reader.Blocks budget [] tokens) (hw : nesting tokens ≤ budget) (n : Nat) :
    reader tokens ≠ .fail .nestingTooDeep n := by
  intro h
  obtain ⟨us, rest, q, rfl, rfl, hq, -, hblocked⟩ := hblocks _ h
  cases hblocked with
  | tooDeep hlt =>
    have hlimit : weight ⟨true, []⟩ + budget = budget := Nat.zero_add budget
    exact absurd (Nat.le_trans (weight_le_peak_of_run hq) hw) (Nat.not_le.2 (hlimit ▸ hlt))
  | stuck _ hstuck => exact hstuck

/-- A budget that covers the nesting of the tokens is not exceeded by any rule. -/
theorem apply_ne_nestingTooDeep (rule : Rule) (hw : nesting tokens ≤ budget) (n : Nat) :
    rule.apply budget tokens ≠ .fail .nestingTooDeep n := by
  by_cases hprimary : rule = .primary
  · subst hprimary
    by_cases ht : ∀ t ∈ tokens.head?, t.kind ∉ Rule.unaryOperators
    · have hunary : Rule.primary.apply budget tokens = unary budget tokens := (unary_of_not_mem ht).symm
      rw [hunary]
      exact Reader.ne_nestingTooDeep (unary_blocks budget []) hw n
    · obtain ⟨t, rest, rfl, hop⟩ := exists_unary_cons ht
      have hfail : Rule.primary.apply budget (t :: rest) = .fail .operandMissing 0 :=
        primary_of_mem_unaryOperators hop
      rw [hfail]
      intro h
      cases h
  · exact Reader.ne_nestingTooDeep (blocks_apply rule hprimary budget) hw n

/-! ## Whole token lists -/

/-- Reading all tokens fails where the machine, started on them, is blocked. -/
theorem readAll_blocked (h : readAll budget tokens = .fail failure n) :
    Halts budget start tokens failure n := by
  have H := Rule.exact_apply .unary budget
  have hlimit : weight ⟨true, []⟩ + budget = budget := Nat.zero_add budget
  rcases Outcome.eq_fail_of_andThen h with h | ⟨e, m, k, he, hf, rfl⟩
  · have hblocks : Reader.Blocks (equalityOf (unary budget)) budget [] tokens :=
      equalityOf_blocks H (rfl : Settled []) (unary_blocks budget []) tokens
    exact hlimit ▸ hblocks h
  · obtain ⟨us, rest, rfl, rfl, hd, hb, hs⟩ := (Rule.exact_apply .expression budget).sound he
    rw [List.drop_left] at hf
    cases rest with
    | nil => cases hf
    | cons t rest =>
      simp only [finish] at hf
      split at hf
      · cases hf
      · next ht =>
        cases hf
        have hstuck : Stuck (settle []) (some t) .endMissing :=
          ⟨rfl, rfl, t, rfl, by simpa using ht, step_settled_eq_none (stops_cons.1 hs) fun _ => rfl⟩
        exact .append (.here (.stuck (Nat.zero_le _) hstuck)) (run_of_derives hd [])
          (under_of_derives hd rfl (Nat.add_le_of_le_sub' (Nat.zero_le _) hb))

/-- A token list is a sentence exactly if it runs to its end with nothing left open. -/
theorem run_start_eq_settle_iff :
    run start us = some (settle []) ↔ ∃ e, Derives .expression us e := by
  constructor
  · intro h
    -- A budget of seven for each token is never exceeded, so a failure would be a stuck step.
    rcases (readAll (7 * us.length) us).accept_or_fail with ⟨e, n, ho⟩ | ⟨failure, n, ho⟩
    · obtain ⟨vs, rest, rfl, rfl, hd, -, hend⟩ := readAll_eq_accept_iff.1 ho
      cases rest with
      | nil => exact ⟨e, by simpa using hd⟩
      | cons t rest =>
        have := isEnd_eq_false_of_run h t (by simp)
        simp [hend t (by simp)] at this
    · obtain ⟨vs, rest, q, rfl, rfl, hq, -, hblocked⟩ := readAll_blocked ho
      rw [run_append, hq, Option.bind_some] at h
      cases hblocked with
      | tooDeep hlt =>
        have hle := weight_le_of_run hq
        rw [List.length_append] at hlt
        simp only [start, weight, List.foldr_nil] at hle hlt
        omega
      | stuck _ hstuck => exact absurd h hstuck.run_ne
  · rintro ⟨e, he⟩
    exact run_of_derives he []

end Grammar

end LoxSyntax
