import LoxSyntax.Proofs.Grammar.Recursion
import LoxSyntax.Proofs.Parse.Reading
import LoxSyntax.Proofs.Scan.Rounds

/-! # Every loop and every recursion gets on

Each round of a scan takes a character at least, each rule that succeeds takes a token, each further
turn of a loop takes two, and with each call of a rule from another the tokens left before the first
end token or the rules that are tighter get fewer (`Rule.Descent`). So scans and rules come to an
end, the rules without any limit of the nesting too (`progress`). -/

namespace LoxSyntax

open Grammar

theorem Grammar.Derives.one_le_length {rule : Rule} {ts : List Token} {e : Expr}
    (h : Derives rule ts e) : 1 ≤ ts.length := by
  induction h with
  | descend _ _ ih => exact ih
  | binary _ _ _ _ ihl _ =>
    rw [List.length_append]
    exact Nat.le_add_right_of_le ihl
  | unary | leaf | grouping => simp

/-! ## The rules -/

namespace Rule

variable {answer deeper : Rule → Reader} {budget : Nat}

/-- Rules that call one another, those one level deeper apart, and get on. -/
structure Descent (answer deeper : Rule → Reader) : Prop where
  /-- What is written down for a rule makes its outcome of the answers to the calls that are listed;
  what is answered otherwise does not matter. -/
  settled : ∀ {rule : Rule} {tokens : List Token} (answer' deeper' : Rule → Reader),
    (∀ callee, Calls answer ⟨rule, tokens⟩ callee →
      answer callee.rule callee.tokens = answer' callee.rule callee.tokens) →
    (∀ callee, CallsDeeper ⟨rule, tokens⟩ callee →
      deeper callee.rule callee.tokens = deeper' callee.rule callee.tokens) →
    answer rule tokens = rule.body answer' deeper' tokens
  decreases : ∀ {caller callee : Call},
    Calls answer caller callee ∨ CallsDeeper caller callee → callee.measure < caller.measure
  terminates : WellFounded fun callee caller : Call =>
    Calls answer caller callee ∨ CallsDeeper caller callee
  accepts : ∀ {rule : Rule} {tokens : List Token} {e : Expr} {n : Nat},
    answer rule tokens = .accept e n → 1 ≤ n ∧ n ≤ tokens.findIdx Token.isEnd
  fails : ∀ {rule : Rule} {tokens : List Token} {failure : Failure} {n : Nat},
    answer rule tokens = .fail failure n → n ≤ tokens.findIdx Token.isEnd
  /-- After the first operand a binary rule is a number of turns. -/
  loops : ∀ {rule tighter : Rule} {tokens : List Token} {e : Expr} {n : Nat},
    rule.next? = some tighter → rule.operators ≠ [] → answer rule tokens = .accept e n →
    ∃ left taken, answer tighter tokens = .accept left taken ∧
      Relation.ReflTransGen (Turn rule.operators (answer tighter)) (tokens.drop taken)
        (tokens.drop n) ∧
      ∀ t ∈ (tokens.drop n).head?, t.kind ∉ rule.operators
  turns : ∀ {rule tighter : Rule} {tokens tokens' : List Token},
    Turn rule.operators (answer tighter) tokens tokens' →
      ∃ n, 2 ≤ n ∧ n ≤ tokens.findIdx Token.isEnd ∧ tokens' = tokens.drop n

/-- Rules that do what is written down and take a token if they succeed, none from the first end
token on. -/
theorem Descent.of_body (hbody : ∀ rule, answer rule = rule.body answer deeper)
    (htakes : ∀ {rule tokens e n}, answer rule tokens = .accept e n → 1 ≤ n)
    (H : ∀ rule, (answer rule).Bounded) : Descent answer deeper where
  settled answer' deeper' h hdeeper := by
    rw [hbody]
    exact body_congr h hdeeper
  decreases h := measure_lt H h
  terminates := wellFounded_calls H
  accepts {rule tokens e n} h := by
    have hbound := H rule tokens
    rw [h] at hbound
    exact ⟨htakes h, hbound⟩
  fails {rule tokens failure n} h := by
    have hbound := H rule tokens
    rwa [h] at hbound
  loops {rule tighter tokens e n} hnext hops h := by
    have hchain : answer rule = chain rule.operators (answer tighter) := by
      rw [hbody]
      cases rule with
      | equality | comparison | term | factor =>
        cases hnext
        rfl
      | expression | unary | primary => exact absurd rfl hops
    exact chain_turns (hchain ▸ h)
  turns {rule tighter tokens tokens'} h := by
    obtain ⟨right, rest, taken, hright, hbound, hdrop⟩ :=
      h.exists_taken (H tighter) eof_not_mem_operators
    have htaken : 1 ≤ taken := htakes hright
    exact ⟨taken + 1, by omega, hbound, hdrop⟩

theorem one_le_of_apply {rule : Rule} {tokens : List Token} {e : Expr} {n : Nat}
    (h : rule.apply budget tokens = .accept e n) : 1 ≤ n := by
  obtain ⟨us, rest, rfl, rfl, hderives, -, -⟩ := (rule.exact_apply budget).sound h
  exact hderives.one_le_length

theorem descent_apply (budget : Nat) : Descent (Rule.apply · budget) (applyDeeper budget) :=
  .of_body apply_eq_body one_le_of_apply (bounded_apply · budget)

theorem descent_unlimited : Descent unlimited unlimited := by
  apply Descent.of_body unlimited_eq_body _ bounded_unlimited
  intro rule tokens e n h
  rw [unlimited_eq_apply rule (Nat.le_refl _)] at h
  exact one_le_of_apply h

end Rule

/-! ## A parse -/

namespace Parse

/-- The place of the first end token from the cursor on. -/
def stop (p : Parse) : Nat := p.current + p.ahead.findIdx Token.isEnd

/-- A rule comes to an expression and moves the cursor, or to a fault; it never moves the cursor
back, nor past the first end token. -/
theorem apply_cases (p : Parse) (rule : Rule) (budget : Nat) :
    (∃ e q, p.apply rule budget = (.ok e, q) ∧ p.current + 1 ≤ q.current ∧ q.current ≤ p.stop) ∨
      ∃ failure q, p.apply rule budget = (.error (.ofFailure failure), q) ∧
        p.current ≤ q.current ∧ q.current ≤ p.stop := by
  have hdescent := Rule.descent_apply budget
  rcases (rule.apply budget p.ahead).accept_or_fail with ⟨e, n, ho⟩ | ⟨failure, n, ho⟩
  · obtain ⟨htaken, hbound⟩ := hdescent.accepts ho
    exact .inl ⟨e, _, read_of_accept ho, Nat.add_le_add_left htaken _, Nat.add_le_add_left hbound _⟩
  · have hbound := hdescent.fails ho
    exact .inr ⟨_, _, read_of_fail ho, Nat.le_add_right .., Nat.add_le_add_left hbound _⟩

end Parse

/-! ## Scans and parses -/

/-- Before the end of the source a token is always taken, it moves the cursor on, and not out of the
source, so a run is at most as many rounds as there are characters. A rule called at any place
succeeds or fails; if it succeeds it takes a token at least, and it stops at the first end token or
before. Each further turn of a loop takes two tokens at least, and the measure gets less with each
call, at every budget and without one; without a budget there is one way only to answer all calls,
and a budget of seven for each token changes nothing. -/
theorem progress :
    (∀ s : Scan, s.isAtEnd = false → ∃ s', s.mark.scanToken = (.ok (), s') ∧
      s'.source = s.source ∧ s.current < s'.current ∧ s'.current ≤ s.source.length) ∧
    (∀ s : Scan, s.finished = false → ∃ n, n + s.current ≤ s.source.length ∧
      (∀ m < n, (Scan.round^[m] { s with finished := true }).isAtEnd = false) ∧
      (Scan.round^[n] { s with finished := true }).isAtEnd = true ∧
      s.run.2 = (Scan.round^[n] { s with finished := true }).addEnd ∧
      s.run.1 = .ok s.run.2.tokens.toList) ∧
    (∀ (p : Parse) (rule : Rule) (budget : Nat),
      ((∃ e q, p.apply rule budget = (.ok e, q) ∧ p.current + 1 ≤ q.current ∧
          q.current ≤ p.stop) ∨
        ∃ failure q, p.apply rule budget = (.error (.ofFailure failure), q) ∧
          p.current ≤ q.current ∧ q.current ≤ p.stop) ∧
      (p.current ≤ p.tokens.findIdx Token.isEnd → p.stop = p.tokens.findIdx Token.isEnd)) ∧
    (∀ budget, Rule.Descent (Rule.apply · budget) (Rule.applyDeeper budget)) ∧
    Rule.Descent Rule.unlimited Rule.unlimited ∧
    (∀ answer : Rule → Reader, (∀ rule, answer rule = rule.body answer answer) →
      answer = Rule.unlimited) ∧
    ∀ (rule : Rule) (budget : Nat) (tokens : List Token), 7 * tokens.length ≤ budget →
      rule.apply budget tokens = rule.unlimited tokens := by
  refine ⟨?_, ?_, ?_, Rule.descent_apply, Rule.descent_unlimited, ?_, ?_⟩
  · intro s h
    exact Scan.exists_scanToken_mark h
  · intro s h
    exact Scan.run_eq_rounds h
  · intro p rule budget
    exact ⟨p.apply_cases rule budget, findIdx_isEnd_drop⟩
  · intro answer h
    exact Rule.eq_unlimited h
  · intro rule budget tokens h
    exact (Rule.unlimited_eq_apply rule h).symm

/-- A sum of two names, and an end token between it and the last one. -/
def sumTokens : List Token :=
  [⟨.identifier, "a", .nil, 1⟩, ⟨.plus, "+", .nil, 1⟩, ⟨.identifier, "b", .nil, 1⟩,
    ⟨.eof, "", .nil, 1⟩, ⟨.eof, "", .nil, 1⟩]

def sumParse : Parse := ⟨sumTokens, rfl, 0, {}, false⟩

theorem progress_sum :
    (∃ s', (Scan.ofText ['a', '+'] {}).mark.scanToken = (.ok (), s') ∧ 0 < s'.current ∧
      s'.current ≤ 2) ∧
    (∃ e q, sumParse.apply .term 950 = (.ok e, q) ∧ 1 ≤ q.current ∧ q.current ≤ 3) ∧
    (∃ n, 2 ≤ n ∧ n ≤ 2 ∧ sumTokens.drop 3 = (sumTokens.drop 1).drop n) ∧
    (⟨.factor, sumTokens.drop 2⟩ : Call).measure < (⟨.term, sumTokens⟩ : Call).measure := by
  have hname : ∀ name, Derives .factor [⟨.identifier, name, .nil, 1⟩]
      (.reference ⟨.identifier, name, .nil, 1⟩) := by
    intro name
    exact (Derives.leaf rfl).loosen (by decide)
  have hfirst : Rule.factor.apply 950 sumTokens = .accept _ 1 :=
    (Rule.exact_apply .factor 950).complete (hname "a") (by decide) (stops_cons.2 (by decide))
  have hsecond : Rule.factor.apply 950 (sumTokens.drop 2) = .accept _ 1 :=
    (Rule.exact_apply .factor 950).complete (hname "b") (by decide) (stops_cons.2 (by decide))
  have hsum : Rule.term.apply 950 sumTokens = .accept _ 3 :=
    (Rule.exact_apply .term 950).complete
      (Derives.binary rfl (by decide) (.descend rfl (hname "a")) (hname "b")) (by decide)
      (stops_cons.2 (by decide))
  have hcall : Calls (Rule.apply · 950) ⟨.term, sumTokens⟩ ⟨.factor, sumTokens.drop 2⟩ :=
    .operand rfl hfirst .refl (by decide)
  have hturn : Turn (Rule.operators .term) (Rule.factor.apply 950) (sumTokens.drop 1)
      (sumTokens.drop 3) := ⟨_, _, _, _, rfl, by decide, hsecond, rfl⟩
  obtain ⟨hscan, -, hparse, hdescent, -⟩ := progress
  obtain ⟨s', hstep, -, hlt, hle⟩ := hscan (Scan.ofText ['a', '+'] {}) rfl
  refine ⟨⟨s', hstep, hlt, hle⟩, ?_, (hdescent 950).turns hturn,
    (hdescent 950).decreases (.inl hcall)⟩
  rcases (hparse sumParse .term 950).1 with hok | ⟨failure, q, hfault, -⟩
  · exact hok
  · have happly : sumParse.apply .term 950 = _ := Parse.read_of_accept hsum
    rw [happly] at hfault
    cases hfault

end LoxSyntax
