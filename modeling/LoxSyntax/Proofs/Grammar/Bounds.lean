import LoxSyntax.Proofs.Grammar.Recognition

/-! # How far readers go

No reader takes a token from the first end token on, whether it succeeds or fails
(`Reader.Bounded`). A chain of bounded operands is bounded, so every rule is, by induction on the
budget (`Rule.bounded_apply`), and so is the reader of whole token lists (`bounded_readAll`). -/

namespace LoxSyntax

namespace Grammar

variable {tokens rest : List Token} {t : Token} {n budget : Nat} {o : Outcome}
  {reader operand : Reader} {operators : List Kind}

theorem findIdx_isEnd_cons (h : t.isEnd = false) :
    (t :: rest).findIdx Token.isEnd = rest.findIdx Token.isEnd + 1 := by
  rw [List.findIdx_cons, h, cond_false]

theorem findIdx_isEnd_drop (h : n ≤ tokens.findIdx Token.isEnd) :
    n + (tokens.drop n).findIdx Token.isEnd = tokens.findIdx Token.isEnd := by
  induction n generalizing tokens with
  | zero => rw [List.drop_zero, Nat.zero_add]
  | succ n ih =>
    cases tokens with
    | nil => cases h
    | cons t rest =>
      cases ht : t.isEnd with
      | true =>
        rw [List.findIdx_cons, ht, cond_true] at h
        cases h
      | false =>
        rw [findIdx_isEnd_cons ht] at h ⊢
        have hrest := ih (Nat.le_of_succ_le_succ h)
        rw [List.drop_succ_cons]
        omega

/-- The reader takes no token from the first end token on. -/
def Reader.Bounded (reader : Reader) : Prop :=
  ∀ tokens, (reader tokens).taken ≤ tokens.findIdx Token.isEnd

theorem taken_andThen_le {next : Expr → Reader} (h : o.taken ≤ tokens.findIdx Token.isEnd)
    (hnext : ∀ e, (next e).Bounded) :
    (o.andThen next tokens).taken ≤ tokens.findIdx Token.isEnd := by
  obtain ⟨failure | e, taken⟩ := o
  · exact h
  · have htaken : taken ≤ tokens.findIdx Token.isEnd := h
    have hrest := hnext e (tokens.drop taken)
    have hdrop := findIdx_isEnd_drop htaken
    simp only [Outcome.andThen, Outcome.shift]
    omega

theorem Reader.Bounded.chainRest (H : operand.Bounded) (heof : .eof ∉ operators) (left : Expr) :
    Reader.Bounded (chainRest operators operand left) := by
  intro tokens
  have hcons : ∀ {operator : Token} {rest : List Token}, operator.kind ∈ operators →
      (operator :: rest).findIdx Token.isEnd = rest.findIdx Token.isEnd + 1 := by
    intro operator rest hop
    apply findIdx_isEnd_cons
    exact Token.isEnd_eq_false_of_mem hop heof
  fun_induction Grammar.chainRest operators operand left tokens with
  | case1 left => exact Nat.zero_le _
  | case2 left operator rest hop right taken hr ih =>
    have htaken : taken ≤ rest.findIdx Token.isEnd := by simpa [hr] using H rest
    have hdrop := findIdx_isEnd_drop htaken
    rw [hcons hop]
    simp only [Outcome.shift]
    omega
  | case3 left operator rest hop failure taken hr =>
    have htaken : taken ≤ rest.findIdx Token.isEnd := by simpa [hr] using H rest
    rw [hcons hop]
    exact Nat.succ_le_succ htaken
  | case4 left operator rest hop => exact Nat.zero_le _

theorem Reader.Bounded.chain (H : operand.Bounded) (rule : Rule) :
    Reader.Bounded (chain rule.operators operand) := by
  intro tokens
  exact taken_andThen_le (H tokens) (H.chainRest Rule.eof_not_mem_operators)

theorem bounded_close (line : Int) (inner : Expr) : Reader.Bounded (close line inner) := by
  intro tokens
  cases tokens with
  | nil => exact Nat.zero_le _
  | cons t rest =>
    simp only [close]
    split
    · next ht =>
      rw [findIdx_isEnd_cons (Token.isEnd_eq_false (by simp [ht]))]
      exact Nat.le_add_left ..
    · exact Nat.zero_le _

theorem bounded_primaryWith {inner : Option Reader} (H : ∀ read ∈ inner, Reader.Bounded read) :
    Reader.Bounded (primaryWith inner) := by
  intro tokens
  cases tokens with
  | nil => exact Nat.zero_le _
  | cons t rest =>
    have hone : t.kind ≠ .eof → 1 ≤ (t :: rest).findIdx Token.isEnd := by
      intro hk
      rw [findIdx_isEnd_cons (Token.isEnd_eq_false hk)]
      exact Nat.le_add_left ..
    simp only [primaryWith]
    split
    case h_7 hk =>
      cases inner with
      | none => exact hone (by simp [hk])
      | some read =>
        have hread := taken_andThen_le (H read rfl rest) (bounded_close t.line)
        rw [findIdx_isEnd_cons (Token.isEnd_eq_false (by simp [hk])), Nat.add_comm]
        exact Nat.add_le_add_left hread 1
    case h_8 => exact Nat.zero_le _
    all_goals
      next hk => exact hone (by simp [hk])

section Levels

variable (H : operand.Bounded)

include H

theorem bounded_factorOf : Reader.Bounded (factorOf operand) := H.chain .factor

theorem bounded_termOf : Reader.Bounded (termOf operand) := (bounded_factorOf H).chain .term

theorem bounded_comparisonOf : Reader.Bounded (comparisonOf operand) :=
  (bounded_termOf H).chain .comparison

theorem bounded_equalityOf : Reader.Bounded (equalityOf operand) :=
  (bounded_comparisonOf H).chain .equality

end Levels

theorem bounded_primary (H : 7 ≤ budget → Reader.Bounded (unary (budget - 7))) :
    Reader.Bounded (primary budget) := by
  by_cases hb : 7 ≤ budget
  · rw [primary_of_seven_le hb]
    apply bounded_primaryWith
    intro read hread
    cases hread
    exact bounded_equalityOf (H hb)
  · rw [primary_of_lt_seven (by omega)]
    exact bounded_primaryWith (by simp)

theorem bounded_unary (budget : Nat) : Reader.Bounded (unary budget) := by
  induction budget using Nat.strongRecOn with
  | ind budget ih =>
    intro tokens
    by_cases ht : ∀ t ∈ tokens.head?, t.kind ∉ Rule.unaryOperators
    · rw [unary_of_not_mem ht]
      exact bounded_primary (fun hb => ih (budget - 7) (by omega)) tokens
    · obtain ⟨operator, rest, rfl, hop⟩ := exists_unary_cons ht
      have hend : operator.isEnd = false := Token.isEnd_eq_false_of_mem hop (by decide)
      rw [findIdx_isEnd_cons hend]
      cases budget with
      | zero =>
        rw [unary_zero_of_mem hop]
        exact Nat.le_add_left ..
      | succ budget =>
        rw [unary_succ_of_mem hop]
        exact Nat.succ_le_succ (ih budget (Nat.lt_succ_self _) rest)

end Grammar

open Grammar in
/-- No rule takes a token from the first end token on. -/
theorem Rule.bounded_apply (rule : Rule) (budget : Nat) : (rule.apply budget).Bounded := by
  have H := bounded_unary budget
  cases rule with
  | expression | equality => exact bounded_equalityOf H
  | comparison => exact bounded_comparisonOf H
  | term => exact bounded_termOf H
  | factor => exact bounded_factorOf H
  | unary => exact H
  | primary => exact bounded_primary fun _ => bounded_unary _

namespace Grammar

theorem bounded_readAll (budget : Nat) : Reader.Bounded (readAll budget) := by
  intro tokens
  apply taken_andThen_le (Rule.bounded_apply .expression budget tokens)
  intro e tokens
  cases tokens with
  | nil => exact Nat.zero_le _
  | cons t rest =>
    simp only [finish]
    split
    · exact Nat.zero_le _
    · exact Nat.zero_le _

end Grammar

end LoxSyntax
