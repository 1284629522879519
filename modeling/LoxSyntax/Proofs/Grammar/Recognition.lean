import LoxSyntax.Proofs.Grammar.Derivation

/-! # Readers accept what the grammar derives

`Reader.Exact` says that a reader accepts exactly the derivations of a rule that fit a nesting
budget, each as far as it goes. A chain of an exact reader is exact at the next looser rule
(`Reader.Exact.chain`), which covers the four binary levels, and by induction on the budget every
rule is read exactly (`Rule.exact_apply`). Since a large budget covers any tree, derivations are
unambiguous (`Derives.unique`), also when they are only known to begin at the same token
(`Derives.unique_of_stops`). -/

namespace LoxSyntax

namespace Grammar

variable {rule tighter : Rule} {budget n : Nat} {tokens us ls rest : List Token} {e left : Expr}
  {reader operand : Reader}

namespace Outcome

variable (m n : Nat) (o : Outcome) (failure : Failure) (next : Expr → Reader)

@[simp] theorem shift_accept : (accept e m).shift n = accept e (n + m) := rfl

@[simp] theorem shift_fail : (fail failure m).shift n = fail failure (n + m) := rfl

@[simp] theorem shift_shift : (o.shift m).shift n = o.shift (n + m) := by
  simp [shift, Nat.add_assoc]

@[simp] theorem shift_zero : o.shift 0 = o := by
  simp [shift]

theorem accept_or_fail :
    (∃ e n, o = accept e n) ∨ ∃ failure n, o = fail failure n := by
  obtain ⟨result | e, n⟩ := o
  · exact .inr ⟨_, _, rfl⟩
  · exact .inl ⟨_, _, rfl⟩

theorem accept_andThen :
    (accept e n).andThen next tokens = (next e (tokens.drop n)).shift n := rfl

theorem eq_accept_of_shift (h : o.shift m = accept e n) :
    ∃ k, o = accept e k ∧ m + k = n := by
  obtain ⟨result, taken⟩ := o
  simp only [shift, accept, mk.injEq] at h
  exact ⟨taken, by simp [accept, h.1], h.2⟩

theorem eq_accept_of_andThen (h : o.andThen next tokens = accept e n) :
    ∃ left m k, o = accept left m ∧ next left (tokens.drop m) = accept e k ∧ m + k = n := by
  obtain ⟨result, taken⟩ := o
  cases result with
  | error failure => simp [andThen, fail, accept] at h
  | ok left =>
    obtain ⟨k, hk, rfl⟩ := eq_accept_of_shift _ _ _ h
    exact ⟨left, taken, k, rfl, hk, rfl⟩

end Outcome

/-- The reader accepts exactly the derivations of the rule that the budget covers and that nothing
prolongs. -/
structure Reader.Exact (reader : Reader) (rule : Rule) (budget : Nat) : Prop where
  sound : ∀ {tokens e n}, reader tokens = .accept e n →
    ∃ us rest, tokens = us ++ rest ∧ us.length = n ∧ Derives rule us e ∧ e.nesting ≤ budget ∧
      Stops rule rest
  complete : ∀ {us e rest}, Derives rule us e → e.nesting ≤ budget → Stops rule rest →
    reader (us ++ rest) = .accept e us.length

/-! ## Chains of binary operators -/

section Chain

variable {operators : List Kind}

theorem chainRest_of_stops (h : ∀ t ∈ rest.head?, t.kind ∉ operators) :
    chainRest operators operand left rest = .accept left 0 := by
  cases rest with
  | nil => rw [chainRest]
  | cons t rest =>
    rw [chainRest, if_neg (h t (by simp))]

theorem chainRest_of_mem {operator : Token} {rs : List Token} {right : Expr}
    (hop : operator.kind ∈ operators) (hr : operand (rs ++ rest) = .accept right rs.length) :
    chainRest operators operand left (operator :: rs ++ rest) =
      (chainRest operators operand (.binary left operator right) rest).shift (rs.length + 1) := by
  rw [List.cons_append, chainRest, if_pos hop, hr]
  simp [Outcome.accept]

theorem Reader.Exact.chainRest_sound (H : operand.Exact tighter budget)
    (hnext : rule.next? = some tighter)
    (h : chainRest rule.operators operand left tokens = .accept e n)
    (hl : Derives rule ls left) (hb : left.nesting ≤ budget) (hs : Stops tighter tokens) :
    ∃ us rest, tokens = us ++ rest ∧ us.length = n ∧ Derives rule (ls ++ us) e ∧
      e.nesting ≤ budget ∧ Stops rule rest := by
  fun_induction chainRest rule.operators operand left tokens generalizing ls n with
  | case1 left =>
    cases h
    exact ⟨[], [], rfl, rfl, by simpa using hl, hb, .nil⟩
  | case2 left operator tail hop right taken hr ih =>
    obtain ⟨k, hk, rfl⟩ := Outcome.eq_accept_of_shift _ _ _ h
    obtain ⟨rs, rest, rfl, rfl, hd, hbr, hsr⟩ := H.sound hr
    simp only [List.drop_left] at hk ih
    obtain ⟨us, rest, rfl, rfl, hd', hb', hs'⟩ :=
      ih hk (.binary hnext hop hl hd) (Nat.max_le.2 ⟨hb, hbr⟩) hsr
    exact ⟨operator :: rs ++ us, rest, by simp, by simp; omega, by simpa using hd', hb', hs'⟩
  | case3 left operator tail hop failure taken hr => cases h
  | case4 left operator tail hop =>
    cases h
    refine ⟨[], operator :: tail, rfl, rfl, by simpa using hl, hb, (stops_iff hnext).2 ⟨hs, ?_⟩⟩
    simpa using hop

theorem Reader.Exact.chain_complete (H : operand.Exact tighter budget)
    (hnext : rule.next? = some tighter) (hops : rule.operators ≠ []) (hd : Derives rule us e)
    (hb : e.nesting ≤ budget) (hs : Stops tighter rest) :
    chain rule.operators operand (us ++ rest) =
      (chainRest rule.operators operand e rest).shift us.length := by
  induction hd generalizing rest with
  | descend h hd =>
    cases hnext.symm.trans h
    rw [chain, H.complete hd hb hs, Outcome.accept_andThen, List.drop_left]
  | @binary _ _ ls left operator rs right h hop _ hr ihl =>
    cases hnext.symm.trans h
    simp only [Expr.nesting, Nat.max_le] at hb
    have hstop : Stops tighter (operator :: rs ++ rest) :=
      stops_cons.2 (Rule.not_mem_chained_of_mem_operators hnext hop)
    rw [List.append_assoc, ihl hnext hops hb.1 hstop,
      chainRest_of_mem hop (H.complete hr hb.2 hs), Outcome.shift_shift]
    simp
  | unary => exact absurd rfl hops
  | leaf => cases hnext
  | grouping => cases hnext

/-- A chain of operands of the next tighter rule reads its rule exactly. -/
theorem Reader.Exact.chain (H : operand.Exact tighter budget) (hnext : rule.next? = some tighter)
    (hops : rule.operators ≠ []) : Reader.Exact (chain rule.operators operand) rule budget where
  sound h := by
    obtain ⟨left, m, k, hl, hr, rfl⟩ := Outcome.eq_accept_of_andThen _ _ _ h
    obtain ⟨ls, rest, rfl, rfl, hd, hb, hs⟩ := H.sound hl
    rw [List.drop_left] at hr
    obtain ⟨us, rest, rfl, rfl, hd', hb', hs'⟩ :=
      H.chainRest_sound hnext hr (.descend hnext hd) hb hs
    exact ⟨ls ++ us, rest, by simp, by simp, hd', hb', hs'⟩
  complete hd hb hs := by
    obtain ⟨hs, hs'⟩ := (stops_iff hnext).1 hs
    rw [H.chain_complete hnext hops hd hb hs, chainRest_of_stops hs']
    rfl

end Chain

/-! ## Primary expressions and unary operators -/

theorem eq_accept_of_close {line : Int} {inner : Expr} (h : close line inner tokens = .accept e n) :
    ∃ t rest, tokens = t :: rest ∧ t.kind = .rightParen ∧ e = .grouping inner line ∧ n = 1 := by
  cases tokens with
  | nil => cases h
  | cons t rest =>
    simp only [close] at h
    split at h
    · next ht =>
      cases h
      exact ⟨t, rest, rfl, ht, rfl, rfl⟩
    · cases h

theorem primaryWith_of_leaf? {inner : Option Reader} {t : Token} (h : t.leaf? = some e) :
    primaryWith inner (t :: rest) = .accept e 1 := by
  simp only [Token.leaf?] at h
  simp only [primaryWith]
  split at h <;> simp_all

theorem eq_accept_of_primaryWith {inner : Option Reader}
    (h : primaryWith inner tokens = .accept e n) :
    (∃ t rest, tokens = t :: rest ∧ t.leaf? = some e ∧ n = 1) ∨
      ∃ opening rest read k, tokens = opening :: rest ∧ opening.kind = .leftParen ∧
        inner = some read ∧
        (read rest).andThen (close opening.line) rest = .accept e k ∧ n = 1 + k := by
  cases tokens with
  | nil => cases h
  | cons t rest =>
    simp only [primaryWith] at h
    split at h
    case h_7 hk =>
      cases inner with
      | none => cases h
      | some read =>
        obtain ⟨k, hk', rfl⟩ := Outcome.eq_accept_of_shift _ _ _ h
        exact .inr ⟨t, rest, read, k, rfl, hk, rfl, hk', rfl⟩
    case h_8 => cases h
    all_goals
      next hk =>
        cases h
        exact .inl ⟨t, rest, rfl, by simp [Token.leaf?, hk], rfl⟩

theorem primaryWith_of_leftParen {read : Reader} {opening : Token}
    (h : opening.kind = .leftParen) :
    primaryWith (some read) (opening :: rest) =
      ((read rest).andThen (close opening.line) rest).shift 1 := by
  simp only [primaryWith, h]

theorem close_of_rightParen {line : Int} {inner : Expr} {closing : Token}
    (h : closing.kind = .rightParen) :
    close line inner (closing :: rest) = .accept (.grouping inner line) 1 := by
  simp only [close, h, if_true]

theorem stops_of_rightParen {closing : Token} (h : closing.kind = .rightParen) :
    Stops rule (closing :: rest) := by
  rw [stops_cons, h]
  cases rule <;> decide

/-- A primary expression is read exactly if what stands between parentheses is, at seven less of
the budget. -/
theorem Reader.Exact.primaryWith {inner : Option Reader}
    (hsome : ∀ read ∈ inner, 7 ≤ budget ∧ Reader.Exact read .expression (budget - 7))
    (hnone : inner = none → budget < 7) :
    Reader.Exact (primaryWith inner) .primary budget where
  sound h := by
    rcases eq_accept_of_primaryWith h with
      ⟨t, rest, rfl, ht, rfl⟩ | ⟨opening, rest, read, k, rfl, ho, hread, hk, rfl⟩
    · exact ⟨[t], rest, rfl, rfl, .leaf ht, by simp [Token.nesting_of_leaf? ht],
        .of_chained_eq_nil rfl⟩
    · obtain ⟨hb, H⟩ := hsome read hread
      obtain ⟨e, m, k, hi, hc, rfl⟩ := Outcome.eq_accept_of_andThen _ _ _ hk
      obtain ⟨us, rest, rfl, rfl, hd, hb', -⟩ := H.sound hi
      rw [List.drop_left] at hc
      obtain ⟨closing, rest, rfl, hcl, rfl, rfl⟩ := eq_accept_of_close hc
      exact ⟨opening :: us ++ [closing], rest, by simp, by simp; omega, .grouping ho hcl hd,
        by simp only [Expr.nesting]; omega, .of_chained_eq_nil rfl⟩
  complete {us e rest} hd hb hs := by
    cases hd with
    | descend hnext => cases hnext
    | binary hnext => cases hnext
    | leaf h => exact primaryWith_of_leaf? h
    | @grouping opening ts e closing ho hcl hd =>
      simp only [Expr.nesting] at hb
      cases inner with
      | none =>
        have := hnone rfl
        omega
      | some read =>
        have H := (hsome read rfl).2
        rw [List.cons_append, List.cons_append, List.append_assoc, List.singleton_append,
          primaryWith_of_leftParen ho, H.complete hd (by omega) (stops_of_rightParen hcl),
          Outcome.accept_andThen, List.drop_left, close_of_rightParen hcl]
        simp [Nat.add_comm]

theorem primary_of_seven_le (h : 7 ≤ budget) :
    primary budget = primaryWith (some (equalityOf (unary (budget - 7)))) := by
  obtain ⟨k, rfl⟩ := Nat.exists_eq_add_of_le' h
  rfl

theorem primary_of_lt_seven (h : budget < 7) : primary budget = primaryWith none := by
  match budget, h with
  | 0, _ | 1, _ | 2, _ | 3, _ | 4, _ | 5, _ | 6, _ => rfl

theorem exact_primary
    (H : 7 ≤ budget → Reader.Exact (equalityOf (unary (budget - 7))) .expression (budget - 7)) :
    Reader.Exact (primary budget) .primary budget := by
  by_cases hb : 7 ≤ budget
  · rw [primary_of_seven_le hb]
    exact .primaryWith (fun read hread => Option.some.inj hread ▸ ⟨hb, H hb⟩) (by simp)
  · rw [primary_of_lt_seven (by omega)]
    exact .primaryWith (by simp) fun _ => by omega

theorem unary_of_not_mem (h : ∀ t ∈ tokens.head?, t.kind ∉ Rule.unaryOperators) :
    unary budget tokens = primary budget tokens := by
  cases tokens with
  | nil =>
    by_cases hb : 7 ≤ budget
    · rw [primary_of_seven_le hb, unary.eq_def]; rfl
    · rw [primary_of_lt_seven (by omega), unary.eq_def]; rfl
  | cons t rest =>
    have ht : t.kind ∉ Rule.unaryOperators := h t (by simp)
    match budget with
    | 0 | 1 | 2 | 3 | 4 | 5 | 6 | k + 7 =>
      rw [unary.eq_def]
      simp only [if_neg ht]
      rfl

theorem exists_unary_cons (h : ¬ ∀ t ∈ tokens.head?, t.kind ∉ Rule.unaryOperators) :
    ∃ operator rest, tokens = operator :: rest ∧ operator.kind ∈ Rule.unaryOperators := by
  cases tokens with
  | nil => simp at h
  | cons operator rest => exact ⟨operator, rest, rfl, by simpa using h⟩

theorem unary_zero_of_mem {operator : Token} (h : operator.kind ∈ Rule.unaryOperators) :
    unary 0 (operator :: rest) = .fail .nestingTooDeep 1 := by
  rw [unary.eq_def]
  exact if_pos h

theorem unary_succ_of_mem {operator : Token} (h : operator.kind ∈ Rule.unaryOperators) :
    unary (budget + 1) (operator :: rest) = applyUnary operator (unary budget rest) := by
  rw [unary.eq_def]
  exact if_pos h

theorem eq_accept_of_applyUnary {operator : Token} {o : Outcome}
    (h : applyUnary operator o = .accept e n) :
    ∃ right k, o = .accept right k ∧ e = .unary operator right ∧ n = k + 1 := by
  obtain ⟨result, taken⟩ := o
  cases result with
  | error failure => cases h
  | ok right =>
    cases h
    exact ⟨right, taken, rfl, rfl, rfl⟩

namespace Derives

theorem head?_of_primary (h : Derives .primary us e) :
    ∀ t ∈ (us ++ rest).head?, t.kind ∉ Rule.unaryOperators := by
  cases h with
  | descend hnext => cases hnext
  | binary hnext => cases hnext
  | leaf h => simpa using Token.not_mem_unaryOperators_of_leaf? h
  | grouping hl => simp [hl, Rule.unaryOperators]

theorem unary_cases (h : Derives .unary us e) :
    Derives .primary us e ∨ ∃ operator ts right, us = operator :: ts ∧
      operator.kind ∈ Rule.unaryOperators ∧ e = .unary operator right ∧ Derives .unary ts right := by
  cases h with
  | descend hnext h =>
    cases hnext
    exact .inl h
  | binary _ hop => simp [Rule.operators] at hop
  | unary hop h => exact .inr ⟨_, _, _, rfl, hop, rfl, h⟩

end Derives

/-- Unary expressions are read exactly if primary ones are, and unary ones at one less of the
budget. -/
theorem exact_unary (hprimary : Reader.Exact (primary budget) .primary budget)
    (hunary : 0 < budget → Reader.Exact (unary (budget - 1)) .unary (budget - 1)) :
    Reader.Exact (unary budget) .unary budget where
  sound {tokens e n} h := by
    by_cases ht : ∀ t ∈ tokens.head?, t.kind ∉ Rule.unaryOperators
    · rw [unary_of_not_mem ht] at h
      obtain ⟨us, rest, rfl, rfl, hd, hb, hs⟩ := hprimary.sound h
      exact ⟨us, rest, rfl, rfl, .descend rfl hd, hb, .of_chained_eq_nil rfl⟩
    · obtain ⟨operator, rest, rfl, hop⟩ := exists_unary_cons ht
      cases budget with
      | zero => cases (unary_zero_of_mem hop).symm.trans h
      | succ budget =>
        rw [unary_succ_of_mem hop] at h
        obtain ⟨right, k, hk, rfl, rfl⟩ := eq_accept_of_applyUnary h
        obtain ⟨us, rest, rfl, rfl, hd, hb, hs⟩ := (hunary (Nat.succ_pos _)).sound hk
        exact ⟨operator :: us, rest, rfl, rfl, .unary hop hd, by simpa [Expr.nesting] using hb,
          hs⟩
  complete {us e rest} hd hb hs := by
    rcases hd.unary_cases with hd' | ⟨operator, ts, right, rfl, hop, rfl, hd'⟩
    · rw [unary_of_not_mem hd'.head?_of_primary, hprimary.complete hd' hb (.of_chained_eq_nil rfl)]
    · obtain ⟨budget, rfl⟩ : ∃ b, budget = b + 1 :=
        Nat.exists_eq_add_one.2 (Nat.lt_of_lt_of_le (Nat.succ_pos _) hb)
      have hright := (hunary (Nat.succ_pos _)).complete hd' (Nat.le_of_succ_le_succ hb) hs
      rw [Nat.add_sub_cancel] at hright
      rw [List.cons_append, unary_succ_of_mem hop, hright]
      rfl

/-! ## All rules -/

theorem Reader.Exact.expression (H : reader.Exact .equality budget) :
    reader.Exact .expression budget where
  sound h := by
    obtain ⟨us, rest, rfl, rfl, hd, hb, hs⟩ := H.sound h
    exact ⟨us, rest, rfl, rfl, .descend rfl hd, hb,
      (stops_iff rfl).2 ⟨hs, by simp [Rule.operators]⟩⟩
  complete {us e rest} hd hb hs := by
    cases hd with
    | descend hnext hd =>
      cases hnext
      exact H.complete hd hb ((stops_iff rfl).1 hs).1
    | binary _ hop => simp [Rule.operators] at hop

section Levels

variable (H : operand.Exact .unary budget)

include H

theorem exact_factorOf : Reader.Exact (factorOf operand) .factor budget :=
  H.chain rfl (by decide)

theorem exact_termOf : Reader.Exact (termOf operand) .term budget :=
  (exact_factorOf H).chain rfl (by decide)

theorem exact_comparisonOf : Reader.Exact (comparisonOf operand) .comparison budget :=
  (exact_termOf H).chain rfl (by decide)

theorem exact_equalityOf : Reader.Exact (equalityOf operand) .equality budget :=
  (exact_comparisonOf H).chain rfl (by decide)

end Levels

/-- Whole expressions between parentheses have seven less of the budget, so that the readers of
all budgets are exact together. -/
theorem exact_unary_and_primary (budget : Nat) :
    Reader.Exact (unary budget) .unary budget ∧ Reader.Exact (primary budget) .primary budget := by
  induction budget using Nat.strongRecOn with
  | ind budget ih =>
    have hprimary := exact_primary fun h =>
      (exact_equalityOf (ih (budget - 7) (by omega)).1).expression
    exact ⟨exact_unary hprimary fun h => (ih (budget - 1) (by omega)).1, hprimary⟩

end Grammar

/-- Every rule is read exactly. -/
theorem Rule.exact_apply (rule : Rule) (budget : Nat) :
    (rule.apply budget).Exact rule budget := by
  obtain ⟨hunary, hprimary⟩ := Grammar.exact_unary_and_primary budget
  cases rule with
  | expression => exact (Grammar.exact_equalityOf hunary).expression
  | equality => exact Grammar.exact_equalityOf hunary
  | comparison => exact Grammar.exact_comparisonOf hunary
  | term => exact Grammar.exact_termOf hunary
  | factor => exact Grammar.exact_factorOf hunary
  | unary => exact hunary
  | primary => exact hprimary

namespace Grammar

variable {budget n : Nat} {tokens us rest : List Token} {e : Expr}

/-- All tokens are read as one expression exactly if they derive it up to an end token. -/
theorem readAll_eq_accept_iff :
    readAll budget tokens = .accept e n ↔
      ∃ us rest, tokens = us ++ rest ∧ us.length = n ∧ Derives .expression us e ∧
        e.nesting ≤ budget ∧ ∀ t ∈ rest.head?, t.isEnd := by
  constructor
  · intro h
    obtain ⟨e', m, k, he, hf, rfl⟩ := Outcome.eq_accept_of_andThen _ _ _ h
    obtain ⟨us, rest, rfl, rfl, hd, hb, -⟩ := (Rule.exact_apply .expression budget).sound he
    rw [List.drop_left] at hf
    cases rest with
    | nil =>
      cases hf
      exact ⟨us, [], rfl, rfl, hd, hb, by simp⟩
    | cons t rest =>
      simp only [finish] at hf
      split at hf
      · next ht =>
        cases hf
        exact ⟨us, t :: rest, rfl, rfl, hd, hb, by simpa using ht⟩
      · cases hf
  · rintro ⟨us, rest, rfl, rfl, hd, hb, hend⟩
    rw [readAll, (Rule.exact_apply .expression budget).complete hd hb (.of_isEnd hend),
      Outcome.accept_andThen, List.drop_left]
    cases rest with
    | nil => rfl
    | cons t rest => simp [finish, hend t (by simp)]

end Grammar

namespace Grammar.Derives

variable {rule : Rule} {us vs rest rest' : List Token} {e e' : Expr}

theorem unique_of_stops (h : Derives rule us e) (h' : Derives rule vs e') (hs : Stops rule rest)
    (hs' : Stops rule rest') (heq : us ++ rest = vs ++ rest') :
    us = vs ∧ e = e' := by
  let budget := max e.nesting e'.nesting
  have hread := (rule.exact_apply budget).complete h (Nat.le_max_left ..) hs
  have hread' := (rule.exact_apply budget).complete h' (Nat.le_max_right ..) hs'
  rw [heq, hread'] at hread
  obtain ⟨he, hlen⟩ : e' = e ∧ vs.length = us.length := by
    simpa [Outcome.accept] using hread
  exact ⟨(List.append_inj heq hlen.symm).1, he.symm⟩

/-- No token list has two trees. -/
theorem unique (h : Derives rule us e) (h' : Derives rule us e') : e = e' :=
  (unique_of_stops h h' .nil .nil rfl).2

end Grammar.Derives

end LoxSyntax
