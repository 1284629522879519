import LoxSyntax.Proofs.Grammar.Recognition

/-! # Recursive descent without a limit

`Grammar.unlimited` reads unary expressions by the rules alone: its recursion is on the tokens that are
left, and no budget stands between parentheses or unary operators (`unlimited_cons`). Readers go
forward, so a reader of operands is only asked about the tokens that follow (`AgreeUpTo`), and a
budget of seven for each token is as good as none (`unlimited_eq_unary`). -/

namespace LoxSyntax

namespace Grammar

variable {f g : Reader} {n budget : Nat} {operators : List Kind} {tokens rest : List Token} {t : Token}
  {left : Expr}

/-! ## Readers go forward -/

/-- The readers come to the same on lists up to the length. -/
def AgreeUpTo (n : Nat) (f g : Reader) : Prop := ∀ ts : List Token, ts.length ≤ n → f ts = g ts

theorem AgreeUpTo.chainRest (h : AgreeUpTo n f g) (hlength : tokens.length ≤ n) :
    Grammar.chainRest operators f left tokens = Grammar.chainRest operators g left tokens := by
  fun_induction Grammar.chainRest operators f left tokens with
  | case1 left => rw [Grammar.chainRest]
  | case2 left operator rest hop right taken hr ih =>
    rw [List.length_cons] at hlength
    have hg : g rest = ⟨.ok right, taken⟩ := (h rest (by omega)).symm.trans hr
    have hdrop : (rest.drop taken).length ≤ n := by rw [List.length_drop]; omega
    rw [ih hdrop]
    symm
    rw [Grammar.chainRest, if_pos hop, hg]
  | case3 left operator rest hop failure taken hr =>
    rw [List.length_cons] at hlength
    have hg : g rest = ⟨.error failure, taken⟩ := (h rest (by omega)).symm.trans hr
    rw [Grammar.chainRest, if_pos hop, hg]
  | case4 left operator rest hop => rw [Grammar.chainRest, if_neg hop]

theorem AgreeUpTo.chain (h : AgreeUpTo n f g) :
    AgreeUpTo n (Grammar.chain operators f) (Grammar.chain operators g) := by
  intro ts hts
  rw [Grammar.chain, Grammar.chain, h ts hts]
  rcases (g ts).accept_or_fail with ⟨e, k, ho⟩ | ⟨failure, k, ho⟩
  · have hdrop : (ts.drop k).length ≤ n := by rw [List.length_drop]; omega
    rw [ho, Outcome.accept_andThen, Outcome.accept_andThen, h.chainRest hdrop]
  · rw [ho]
    rfl

theorem AgreeUpTo.equality (h : AgreeUpTo n f g) : AgreeUpTo n (equalityOf f) (equalityOf g) :=
  h.chain.chain.chain.chain

theorem AgreeUpTo.primary (h : AgreeUpTo n f g) (hrest : rest.length ≤ n) :
    primaryWith (some f) (t :: rest) = primaryWith (some g) (t :: rest) := by
  simp only [primaryWith, h rest hrest]

/-! ## The reader -/

/-- Reads unary operators and the primary expression that they stand before, however deep it is. The
recursion of what stands between parentheses goes through all levels, which hand on no longer lists
than they are given. -/
def unlimited (tokens : List Token) : Outcome :=
  match tokens with
  | [] => .fail .operandMissing 0
  | t :: rest =>
    let shorter : Reader := fun ts =>
      if ts.length ≤ rest.length then unlimited ts else .fail .operandMissing 0
    if t.kind ∈ Rule.unaryOperators then applyUnary t (unlimited rest)
    else primaryWith (some (equalityOf shorter)) (t :: rest)
termination_by tokens.length
decreasing_by
  · rw [List.length_cons]
    omega
  · exact Nat.lt_succ_self _

/-- The recursion of the rules: no list that is handed on is longer than permitted. -/
theorem unlimited_cons (t : Token) (rest : List Token) :
    unlimited (t :: rest) =
      if t.kind ∈ Rule.unaryOperators then applyUnary t (unlimited rest)
      else primaryWith (some (equalityOf unlimited)) (t :: rest) := by
  have hagree : AgreeUpTo rest.length
      (fun ts => if ts.length ≤ rest.length then unlimited ts else .fail .operandMissing 0)
      unlimited :=
    fun ts hts => if_pos hts
  rw [unlimited, hagree.equality.primary (Nat.le_refl _)]

theorem unlimited_eq_unary (h : 7 * tokens.length ≤ budget) :
    unlimited tokens = unary budget tokens := by
  induction hn : tokens.length using Nat.strongRecOn generalizing tokens budget with
  | ind n ih =>
    cases tokens with
    | nil => rw [unlimited, unary.eq_def]
    | cons t rest =>
      rw [List.length_cons] at h hn
      obtain ⟨budget, rfl⟩ : ∃ b, budget = b + 7 := ⟨budget - 7, by omega⟩
      rw [unlimited_cons]
      split
      · next hop =>
        have hrest : unlimited rest = unary (budget + 6) rest :=
          ih rest.length (by omega) (by omega) rfl
        rw [unary_succ_of_mem hop, hrest]
      · next hop =>
        have hagree : AgreeUpTo rest.length unlimited (unary budget) :=
          fun ts hts => ih ts.length (by omega) (by omega) rfl
        rw [hagree.equality.primary (Nat.le_refl _), unary.eq_def]
        exact (if_neg hop).symm

/-- Reads all tokens before the end token as one expression, however deep it is. -/
def readUnlimited (tokens : List Token) : Outcome :=
  (equalityOf unlimited tokens).andThen finish tokens

theorem readUnlimited_eq_readAll (h : 7 * tokens.length ≤ budget) :
    readUnlimited tokens = readAll budget tokens := by
  have hagree : AgreeUpTo tokens.length unlimited (unary budget) :=
    fun ts hts => unlimited_eq_unary (by omega)
  rw [readUnlimited, hagree.equality tokens (Nat.le_refl _)]
  rfl

end Grammar

end LoxSyntax
