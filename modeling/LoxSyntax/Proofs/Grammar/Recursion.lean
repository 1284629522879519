import LoxSyntax.Proofs.Grammar.Bounds
import LoxSyntax.Proofs.Grammar.Normal
import LoxSyntax.Proofs.Grammar.Unlimited
import Mathlib.Data.Prod.Lex
import Mathlib.Logic.Relation

/-! # The recursion of the rules

`Rule.body` is a rule as it is written down: what it makes of the answers of the rules that it calls.
`Grammar.Calls` and `Grammar.CallsDeeper` list these calls, and no answer to any other call matters
(`Rule.body_congr`). The tokens before the first end token and, among calls at the same tokens, the
rules that are tighter get fewer with each call (`Grammar.measure_lt`), whatever budget there is. So
the calls come to an end (`Grammar.wellFounded_calls`), and the rules without a budget are the only
readers that do what is written down (`Rule.eq_unlimited`). -/

namespace LoxSyntax

open Grammar

/-! ## The rules as they are written down -/

namespace Rule

/-- What a rule makes of the answers of the rules that it calls. What a unary operator or a parenthesis
stands before is one level deeper, and the calls there are answered apart. -/
def body (answer deeper : Rule → Reader) : Rule → Reader
  | expression => answer equality
  | equality => chain (operators equality) (answer comparison)
  | comparison => chain (operators comparison) (answer term)
  | term => chain (operators term) (answer factor)
  | factor => chain (operators factor) (answer unary)
  | unary => fun tokens =>
    match tokens with
    | [] => answer primary []
    | t :: rest =>
      if t.kind ∈ unaryOperators then applyUnary t (deeper unary rest) else answer primary (t :: rest)
  | primary => primaryWith (some (deeper expression))

/-- The rule one level deeper, where unary operands cost one of the budget and what stands between
parentheses seven. A call that the budget does not allow fails before it takes a token. -/
def applyDeeper (budget : Nat) (rule : Rule) : Reader :=
  let cost := if rule = .unary then 1 else 7
  if cost ≤ budget then rule.apply (budget - cost) else fun _ => .fail .nestingTooDeep 0

/-- The rule without a budget. -/
def unlimited : Rule → Reader
  | expression | equality => equalityOf Grammar.unlimited
  | comparison => comparisonOf Grammar.unlimited
  | term => termOf Grammar.unlimited
  | factor => factorOf Grammar.unlimited
  | unary => Grammar.unlimited
  | primary => primaryWith (some (equalityOf Grammar.unlimited))

variable {budget : Nat}

theorem primary_eq_primaryWith (budget : Nat) :
    primary.apply budget = primaryWith (some (applyDeeper budget expression)) := by
  by_cases h : 7 ≤ budget
  · have hdeeper : applyDeeper budget expression = expression.apply (budget - 7) := if_pos h
    rw [hdeeper]
    exact primary_of_seven_le h
  · have hdeeper : applyDeeper budget expression = fun _ => .fail .nestingTooDeep 0 := if_neg h
    rw [hdeeper]
    refine (primary_of_lt_seven (Nat.lt_of_not_le h)).trans ?_
    funext tokens
    cases tokens <;> rfl

theorem unary_cons_of_mem {t : Token} (rest : List Token) (h : t.kind ∈ unaryOperators) :
    unary.apply budget (t :: rest) = applyUnary t (applyDeeper budget unary rest) := by
  cases budget with
  | zero => exact unary_zero_of_mem h
  | succ budget => exact unary_succ_of_mem h

/-- With a budget each rule does what is written down for it. -/
theorem apply_eq_body (rule : Rule) :
    rule.apply budget = rule.body (·.apply budget) (applyDeeper budget) := by
  cases rule with
  | expression | equality | comparison | term | factor => rfl
  | primary => exact primary_eq_primaryWith budget
  | unary =>
    funext tokens
    cases tokens with
    | nil =>
      simp only [body]
      exact unary_of_not_mem (by simp)
    | cons t rest =>
      simp only [body]
      split
      · next h => exact unary_cons_of_mem rest h
      · next h => exact unary_of_not_mem (by simpa using h)

/-- Without a budget each rule does what is written down for it. -/
theorem unlimited_eq_body (rule : Rule) : rule.unlimited = rule.body unlimited unlimited := by
  cases rule with
  | expression | equality | comparison | term | factor | primary => rfl
  | unary =>
    funext tokens
    cases tokens with
    | nil =>
      simp only [body]
      rw [unlimited, Grammar.unlimited]
      rfl
    | cons t rest => exact unlimited_cons t rest

/-- A budget of seven for each token is as good as none. -/
theorem unlimited_eq_apply {tokens : List Token} (rule : Rule) (h : 7 * tokens.length ≤ budget) :
    rule.unlimited tokens = rule.apply budget tokens := by
  have hagree : AgreeUpTo tokens.length Grammar.unlimited (Grammar.unary budget) :=
    fun ts hts => unlimited_eq_unary (by omega)
  cases rule with
  | expression | equality => exact hagree.equality tokens (Nat.le_refl _)
  | comparison => exact hagree.chain.chain.chain tokens (Nat.le_refl _)
  | term => exact hagree.chain.chain tokens (Nat.le_refl _)
  | factor => exact hagree.chain tokens (Nat.le_refl _)
  | unary => exact unlimited_eq_unary h
  | primary =>
    cases tokens with
    | nil =>
      rw [primary_eq_primaryWith]
      rfl
    | cons t rest =>
      rw [List.length_cons] at h
      have hrest : AgreeUpTo rest.length Grammar.unlimited (Grammar.unary (budget - 7)) :=
        fun ts hts => unlimited_eq_unary (by omega)
      exact (hrest.equality.primary (Nat.le_refl _)).trans
        (congrFun (primary_of_seven_le (by omega)) (t :: rest)).symm

end Rule

namespace Grammar

/-! ## The calls of a rule -/

/-- A rule, and the tokens that it is called at. -/
structure Call where
  rule : Rule
  tokens : List Token

/-- One more turn of the loop of a binary rule: an operator and its right operand are taken. -/
def Turn (operators : List Kind) (operand : Reader) (tokens tokens' : List Token) : Prop :=
  ∃ operator rest right taken, tokens = operator :: rest ∧ operator.kind ∈ operators ∧
    operand rest = .accept right taken ∧ tokens' = rest.drop taken

/-- The calls of a rule that leave the nesting as it is, given the answers to the earlier ones: the next
tighter rule at the same tokens, unless a unary operator is taken, and for a right operand after any
number of turns of the loop. -/
inductive Calls (answer : Rule → Reader) : Call → Call → Prop
  | next {rule tighter tokens} : rule.next? = some tighter →
      (rule = .unary → ∀ t ∈ tokens.head?, t.kind ∉ Rule.unaryOperators) →
      Calls answer ⟨rule, tokens⟩ ⟨tighter, tokens⟩
  | operand {rule tighter tokens left taken operator rest} : rule.next? = some tighter →
      answer tighter tokens = .accept left taken →
      Relation.ReflTransGen (Turn rule.operators (answer tighter)) (tokens.drop taken)
        (operator :: rest) →
      operator.kind ∈ rule.operators → Calls answer ⟨rule, tokens⟩ ⟨tighter, rest⟩

/-- The calls behind a unary operator and behind a parenthesis. -/
inductive CallsDeeper : Call → Call → Prop
  | unary {operator rest} : operator.kind ∈ Rule.unaryOperators →
      CallsDeeper ⟨.unary, operator :: rest⟩ ⟨.unary, rest⟩
  | grouping {opening rest} : opening.kind = .leftParen →
      CallsDeeper ⟨.primary, opening :: rest⟩ ⟨.expression, rest⟩

/-! ## The loops -/

section Loops

variable {operand : Reader} {operators : List Kind} {left e : Expr} {tokens : List Token} {n : Nat}

theorem chainRest_turns (h : chainRest operators operand left tokens = .accept e n) :
    Relation.ReflTransGen (Turn operators operand) tokens (tokens.drop n) ∧
      ∀ t ∈ (tokens.drop n).head?, t.kind ∉ operators := by
  fun_induction chainRest operators operand left tokens generalizing n with
  | case1 left =>
    cases h
    exact ⟨.refl, by simp⟩
  | case2 left operator rest hop right taken hr ih =>
    obtain ⟨k, hk, rfl⟩ := Outcome.eq_accept_of_shift _ _ _ h
    obtain ⟨hturns, hstop⟩ := ih hk
    have hturn : Turn operators operand (operator :: rest) (rest.drop taken) :=
      ⟨operator, rest, right, taken, rfl, hop, hr, rfl⟩
    have hdrop : (operator :: rest).drop (taken + 1 + k) = (rest.drop taken).drop k := by
      rw [List.drop_drop, Nat.add_right_comm, List.drop_succ_cons]
    rw [hdrop]
    exact ⟨.head hturn hturns, hstop⟩
  | case3 left operator rest hop failure taken hr => cases h
  | case4 left operator rest hop =>
    cases h
    exact ⟨.refl, by simpa using hop⟩

/-- A chain is its first operand and then a number of turns, up to a token that is none of the
operators. -/
theorem chain_turns (h : chain operators operand tokens = .accept e n) :
    ∃ left taken, operand tokens = .accept left taken ∧
      Relation.ReflTransGen (Turn operators operand) (tokens.drop taken) (tokens.drop n) ∧
      ∀ t ∈ (tokens.drop n).head?, t.kind ∉ operators := by
  obtain ⟨left, taken, k, hfirst, hrest, rfl⟩ := Outcome.eq_accept_of_andThen _ _ _ h
  obtain ⟨hturns, hstop⟩ := chainRest_turns hrest
  rw [List.drop_drop] at hturns hstop
  exact ⟨left, taken, hfirst, hturns, hstop⟩

end Loops

/-! ## No other call matters -/

section Congruence

variable {operand operand' : Reader} {operators : List Kind} {left : Expr} {tokens : List Token}

theorem chainRest_congr
    (h : ∀ operator rest, Relation.ReflTransGen (Turn operators operand) tokens (operator :: rest) →
      operator.kind ∈ operators → operand rest = operand' rest) :
    chainRest operators operand left tokens = chainRest operators operand' left tokens := by
  fun_induction chainRest operators operand left tokens with
  | case1 left => rw [chainRest]
  | case2 left operator rest hop right taken hr ih =>
    have hsame : operand' rest = ⟨.ok right, taken⟩ :=
      (h operator rest .refl hop).symm.trans hr
    have hturn : Turn operators operand (operator :: rest) (rest.drop taken) :=
      ⟨operator, rest, right, taken, rfl, hop, hr, rfl⟩
    rw [ih fun operator' rest' hturns => h operator' rest' (.head hturn hturns)]
    symm
    rw [chainRest, if_pos hop, hsame]
  | case3 left operator rest hop failure taken hr =>
    have hsame : operand' rest = ⟨.error failure, taken⟩ :=
      (h operator rest .refl hop).symm.trans hr
    rw [chainRest, if_pos hop, hsame]
  | case4 left operator rest hop => rw [chainRest, if_neg hop]

theorem chain_congr (hfirst : operand tokens = operand' tokens)
    (h : ∀ left taken operator rest, operand tokens = .accept left taken →
      Relation.ReflTransGen (Turn operators operand) (tokens.drop taken) (operator :: rest) →
      operator.kind ∈ operators → operand rest = operand' rest) :
    chain operators operand tokens = chain operators operand' tokens := by
  rw [chain, chain, ← hfirst]
  rcases (operand tokens).accept_or_fail with ⟨left, taken, ho⟩ | ⟨failure, taken, ho⟩
  · rw [ho, Outcome.accept_andThen, Outcome.accept_andThen,
      chainRest_congr fun operator rest => h left taken operator rest ho]
  · rw [ho]
    rfl

theorem primaryWith_congr {inner inner' : Reader}
    (h : ∀ opening rest, tokens = opening :: rest → opening.kind = .leftParen →
      inner rest = inner' rest) :
    primaryWith (some inner) tokens = primaryWith (some inner') tokens := by
  cases tokens with
  | nil => rfl
  | cons t rest =>
    by_cases ht : t.kind = .leftParen
    · simp only [primaryWith, ht, h t rest rfl ht]
    · simp only [primaryWith]
      split
      all_goals first | rfl | exact absurd ‹_› ht

end Congruence

end Grammar

/-- What a rule comes to is settled by the answers to its calls. -/
theorem Rule.body_congr {answer answer' deeper deeper' : Rule → Reader} {rule : Rule}
    {tokens : List Token}
    (h : ∀ callee, Calls answer ⟨rule, tokens⟩ callee →
      answer callee.rule callee.tokens = answer' callee.rule callee.tokens)
    (hdeeper : ∀ callee, CallsDeeper ⟨rule, tokens⟩ callee →
      deeper callee.rule callee.tokens = deeper' callee.rule callee.tokens) :
    rule.body answer deeper tokens = rule.body answer' deeper' tokens := by
  have hchain : ∀ tighter, rule.next? = some tighter → rule ≠ .unary →
      chain rule.operators (answer tighter) tokens = chain rule.operators (answer' tighter) tokens := by
    intro tighter hnext hne
    apply chain_congr
    · exact h ⟨tighter, tokens⟩ (.next hnext fun hrule => absurd hrule hne)
    · intro left taken operator rest hfirst hturns hop
      exact h ⟨tighter, rest⟩ (.operand hnext hfirst hturns hop)
  cases rule with
  | expression => exact h ⟨.equality, tokens⟩ (.next rfl nofun)
  | equality | comparison | term | factor => exact hchain _ rfl nofun
  | unary =>
    cases tokens with
    | nil => exact h ⟨.primary, []⟩ (.next rfl (by simp))
    | cons t rest =>
      by_cases ht : t.kind ∈ unaryOperators
      · simp only [body, if_pos ht, hdeeper _ (.unary ht)]
      · simp only [body, if_neg ht]
        exact h ⟨.primary, t :: rest⟩ (.next rfl (by simpa using ht))
  | primary =>
    apply primaryWith_congr
    rintro opening rest rfl hopening
    exact hdeeper _ (.grouping hopening)

namespace Grammar

/-! ## The measure of a call -/

/-- The tokens before the first end token, and among calls at as many tokens the rules from this one on
to the tightest. -/
def Call.measure (call : Call) : ℕ ×ₗ ℕ :=
  toLex (call.tokens.findIdx Token.isEnd, Rule.all.length - call.rule.rank)

variable {operators : List Kind} {operand : Reader} {tokens tokens' : List Token}
  {answer : Rule → Reader} {caller callee : Call}

theorem findIdx_isEnd_drop_le {n : Nat} (h : n ≤ tokens.findIdx Token.isEnd) :
    (tokens.drop n).findIdx Token.isEnd ≤ tokens.findIdx Token.isEnd := by
  have hdrop := findIdx_isEnd_drop h
  omega

/-- A turn takes the operator and what its operand takes, and nothing from the first end token on. -/
theorem Turn.exists_taken (H : operand.Bounded) (heof : .eof ∉ operators)
    (h : Turn operators operand tokens tokens') :
    ∃ right rest taken, operand rest = .accept right taken ∧
      taken + 1 ≤ tokens.findIdx Token.isEnd ∧ tokens' = tokens.drop (taken + 1) := by
  obtain ⟨operator, rest, right, taken, rfl, hop, hr, rfl⟩ := h
  have hend : operator.isEnd = false := Token.isEnd_eq_false_of_mem hop heof
  have htaken : taken ≤ rest.findIdx Token.isEnd := by simpa [hr, Outcome.accept] using H rest
  rw [findIdx_isEnd_cons hend]
  exact ⟨right, rest, taken, hr, Nat.succ_le_succ htaken, rfl⟩

theorem findIdx_isEnd_le_of_turns (H : operand.Bounded) (heof : .eof ∉ operators)
    (h : Relation.ReflTransGen (Turn operators operand) tokens tokens') :
    tokens'.findIdx Token.isEnd ≤ tokens.findIdx Token.isEnd := by
  induction h with
  | refl => exact Nat.le_refl _
  | tail _ hturn ih =>
    obtain ⟨-, -, taken, -, htaken, rfl⟩ := hturn.exists_taken H heof
    exact (findIdx_isEnd_drop_le htaken).trans ih

theorem measure_lt_of_calls (H : ∀ rule, (answer rule).Bounded) (h : Calls answer caller callee) :
    callee.measure < caller.measure := by
  cases h with
  | @next rule tighter tokens hnext _ =>
    -- the same tokens, and a tighter rule
    have hrank : tighter.rank = rule.rank + 1 := Rule.rank_of_next? hnext
    have hlast : tighter.rank < Rule.all.length := by cases tighter <;> decide
    exact Prod.Lex.toLex_lt_toLex.2 (.inr ⟨rfl, by dsimp only; omega⟩)
  | @operand rule tighter tokens left taken operator rest _ hfirst hturns hop =>
    -- the operator at least has been taken
    have hend : operator.isEnd = false := Token.isEnd_eq_false_of_mem hop Rule.eof_not_mem_operators
    have htaken : taken ≤ tokens.findIdx Token.isEnd := by
      simpa [hfirst, Outcome.accept] using H tighter tokens
    have hloop := findIdx_isEnd_le_of_turns (H tighter) Rule.eof_not_mem_operators hturns
    rw [findIdx_isEnd_cons hend] at hloop
    have hleft := findIdx_isEnd_drop_le htaken
    exact Prod.Lex.toLex_lt_toLex.2 (.inl (by dsimp only; omega))

theorem measure_lt_of_callsDeeper (h : CallsDeeper caller callee) :
    callee.measure < caller.measure := by
  have hcons : ∀ {t : Token} (rest : List Token), t.isEnd = false →
      rest.findIdx Token.isEnd < (t :: rest).findIdx Token.isEnd := by
    intro t rest hend
    rw [findIdx_isEnd_cons hend]
    exact Nat.lt_succ_self _
  cases h with
  | @unary operator rest hop =>
    have hend : operator.isEnd = false := Token.isEnd_eq_false_of_mem hop (by decide)
    exact Prod.Lex.toLex_lt_toLex.2 (.inl (hcons rest hend))
  | @grouping opening rest hopening =>
    have hend : opening.isEnd = false := Token.isEnd_eq_false (by simp [hopening])
    exact Prod.Lex.toLex_lt_toLex.2 (.inl (hcons rest hend))

/-- With each call the tokens that are left get fewer, or the rule gets tighter. -/
theorem measure_lt (H : ∀ rule, (answer rule).Bounded)
    (h : Calls answer caller callee ∨ CallsDeeper caller callee) : callee.measure < caller.measure := by
  rcases h with h | h
  · exact measure_lt_of_calls H h
  · exact measure_lt_of_callsDeeper h

/-- The calls of rules from one another come to an end. -/
theorem wellFounded_calls (H : ∀ rule, (answer rule).Bounded) :
    WellFounded fun callee caller => Calls answer caller callee ∨ CallsDeeper caller callee :=
  Subrelation.wf (measure_lt H) (InvImage.wf Call.measure wellFounded_lt)

end Grammar

/-! ## The rules without a budget -/

namespace Rule

theorem bounded_unlimited (rule : Rule) : rule.unlimited.Bounded := by
  intro tokens
  rw [unlimited_eq_apply rule (Nat.le_refl _)]
  exact bounded_apply rule _ tokens

/-- The rules without a budget are the only readers that do what is written down. By induction on the
calls: at each of them both come to the same. -/
theorem eq_unlimited {answer : Rule → Reader} (h : ∀ rule, answer rule = rule.body answer answer) :
    answer = unlimited := by
  have hsame : ∀ call : Call, unlimited call.rule call.tokens = answer call.rule call.tokens := by
    intro call
    induction call using (wellFounded_calls bounded_unlimited).induction with
    | _ caller ih =>
      rw [unlimited_eq_body, h]
      apply body_congr
      · intro callee hcall
        exact ih callee (.inl hcall)
      · intro callee hcall
        exact ih callee (.inr hcall)
  funext rule tokens
  exact (hsame ⟨rule, tokens⟩).symm

end Rule

end LoxSyntax
