import LoxSyntax.Proofs.Grammar.Derivation

/-! # How far an expression has come

`Progress` is what the tokens of an unfinished expression leave open: whether an operand has to
come next, and which parentheses and unary operators wait for the operand that is being read. It is
a pushdown machine beside the readers: `Progress.step` takes one token or is stuck. Every
derivation is a run of the machine (`Progress.run_of_derives`), so a token list on which the machine
is stuck begins no expression. Its weight is the nesting of the point that it stands for, and
`Grammar.nesting` the greatest one that a token list reaches. -/

namespace LoxSyntax

namespace Grammar

/-- What waits for the operand that is being read. -/
inductive Frame
  | parenthesis
  | unary
  deriving DecidableEq

def Frame.weight : Frame → Nat
  | parenthesis => 7
  | unary => 1

/-- What the tokens of an unfinished expression leave open. -/
structure Progress where
  /-- Whether an operand has to come next. -/
  due : Bool
  /-- What waits for the operand that is being read, innermost first. -/
  pending : List Frame
  deriving DecidableEq

namespace Progress

def start : Progress := ⟨true, []⟩

/-- An operand has been read, and with it those of the unary operators before it. -/
def settle (pending : List Frame) : Progress := ⟨false, pending.dropWhile (· = .unary)⟩

/-- The nesting of this point. -/
def weight (p : Progress) : Nat := p.pending.foldr (·.weight + ·) 0

/-- The progress after one more token, unless that token cannot come next. -/
def step (p : Progress) (t : Token) : Option Progress :=
  if p.due then
    if t.kind ∈ Rule.unaryOperators then some ⟨true, .unary :: p.pending⟩
    else if t.kind = .leftParen then some ⟨true, .parenthesis :: p.pending⟩
    else if t.leaf?.isSome then some (settle p.pending)
    else none
  else if t.kind ∈ Rule.expression.chained then some ⟨true, p.pending⟩
  else if t.kind = .rightParen then
    match p.pending with
    | .parenthesis :: outer => some (settle outer)
    | _ => none
  else none

/-- The progress after more tokens, unless one of them cannot come next. -/
def run (p : Progress) (tokens : List Token) : Option Progress := tokens.foldlM step p

/-- The greatest weight on the way to the first token that cannot come next. -/
def peak (p : Progress) : List Token → Nat
  | [] => p.weight
  | t :: ts =>
    match p.step t with
    | some q => max p.weight (q.peak ts)
    | none => p.weight

variable {p q : Progress} {t : Token} {us vs : List Token} {pending : List Frame}

@[simp] theorem run_nil : p.run [] = some p := rfl

@[simp] theorem run_cons : p.run (t :: us) = (p.step t).bind (·.run us) := rfl

theorem run_append : p.run (us ++ vs) = (p.run us).bind (·.run vs) := by
  simp [run, List.foldlM_append]

/-! ## The steps -/

theorem step_of_unary (h : t.kind ∈ Rule.unaryOperators) :
    step ⟨true, pending⟩ t = some ⟨true, .unary :: pending⟩ := by
  simp [step, h]

theorem step_of_leftParen (h : t.kind = .leftParen) :
    step ⟨true, pending⟩ t = some ⟨true, .parenthesis :: pending⟩ := by
  simp [step, h, Rule.unaryOperators]

theorem step_of_leaf? {e : Expr} (h : t.leaf? = some e) :
    step ⟨true, pending⟩ t = some (settle pending) := by
  have hk : t.kind ≠ .leftParen := by
    intro hk
    simp [Token.leaf?, hk] at h
  simp [step, h, hk, Token.not_mem_unaryOperators_of_leaf? h]

theorem step_of_chained (h : t.kind ∈ Rule.expression.chained) :
    step ⟨false, pending⟩ t = some ⟨true, pending⟩ := by
  simp [step, h]

theorem step_of_rightParen (h : t.kind = .rightParen) :
    step ⟨false, .parenthesis :: pending⟩ t = some (settle pending) := by
  have hk : Kind.rightParen ∉ Rule.expression.chained := by decide
  simp [step, h, hk]

theorem step_due_eq_none (hu : t.kind ∉ Rule.unaryOperators) (hp : t.kind ≠ .leftParen)
    (hl : t.leaf? = none) : step ⟨true, pending⟩ t = none := by
  simp [step, hu, hp, hl]

theorem step_settled_eq_none (hc : t.kind ∉ Rule.expression.chained)
    (hr : t.kind = .rightParen → pending = []) : step ⟨false, pending⟩ t = none := by
  simp only [step, if_neg hc, Bool.false_eq_true, if_false]
  split
  · next h => rw [hr h]
  · rfl

/-- Every step is one of five. -/
theorem step_cases (h : p.step t = some q) :
    (p.due = true ∧ t.kind ∈ Rule.unaryOperators ∧ q = ⟨true, .unary :: p.pending⟩) ∨
    (p.due = true ∧ t.kind = .leftParen ∧ q = ⟨true, .parenthesis :: p.pending⟩) ∨
    (p.due = true ∧ (∃ e, t.leaf? = some e) ∧ q = settle p.pending) ∨
    (p.due = false ∧ t.kind ∈ Rule.expression.chained ∧ q = ⟨true, p.pending⟩) ∨
    (p.due = false ∧ t.kind = .rightParen ∧
      ∃ outer, p.pending = .parenthesis :: outer ∧ q = settle outer) := by
  obtain ⟨due, pending⟩ := p
  cases due with
  | true =>
    simp only [step, if_true] at h
    split at h
    · next hk => exact .inl ⟨rfl, hk, (Option.some.inj h).symm⟩
    split at h
    · next hk => exact .inr (.inl ⟨rfl, hk, (Option.some.inj h).symm⟩)
    split at h
    · next hk =>
      exact .inr (.inr (.inl ⟨rfl, Option.isSome_iff_exists.mp hk, (Option.some.inj h).symm⟩))
    · cases h
  | false =>
    simp only [step, Bool.false_eq_true, if_false] at h
    split at h
    · next hk => exact .inr (.inr (.inr (.inl ⟨rfl, hk, (Option.some.inj h).symm⟩)))
    split at h
    · next hk =>
      split at h
      · next outer =>
        exact .inr (.inr (.inr (.inr ⟨rfl, hk, outer, rfl, (Option.some.inj h).symm⟩)))
      · cases h
    · cases h

theorem isEnd_eq_false_of_step (h : p.step t = some q) : t.isEnd = false := by
  refine Token.isEnd_eq_false fun hk => ?_
  rcases step_cases h with ⟨-, h, -⟩ | ⟨-, h, -⟩ | ⟨-, ⟨e, h⟩, -⟩ | ⟨-, h, -⟩ | ⟨-, h, -⟩
  · exact absurd (hk ▸ h) (by decide)
  · exact absurd (hk ▸ h) (by decide)
  · simp [Token.leaf?, hk] at h
  · exact absurd (hk ▸ h) (by decide)
  · exact absurd (hk ▸ h) (by decide)

theorem isEnd_eq_false_of_run (h : p.run us = some q) : ∀ t ∈ us, t.isEnd = false := by
  induction us generalizing p with
  | nil => simp
  | cons u us ih =>
    obtain ⟨r, hr, h⟩ := Option.bind_eq_some_iff.mp h
    exact List.forall_mem_cons.2 ⟨isEnd_eq_false_of_step hr, ih h⟩

/-! ## Settled operands -/

@[simp] theorem settle_nil : settle [] = ⟨false, []⟩ := rfl

@[simp] theorem settle_unary : settle (.unary :: pending) = settle pending := rfl

@[simp] theorem settle_parenthesis :
    settle (.parenthesis :: pending) = ⟨false, .parenthesis :: pending⟩ := rfl

@[simp] theorem settle_pending_settle : settle (settle pending).pending = settle pending := by
  induction pending with
  | nil => rfl
  | cons frame pending ih => cases frame <;> simp [ih]

/-- A derivation is a run, after which its operand is settled. -/
theorem run_of_derives {rule : Rule} {ts : List Token} {e : Expr} (h : Derives rule ts e)
    (pending : List Frame) : run ⟨true, pending⟩ ts = some (settle pending) := by
  induction h generalizing pending with
  | descend _ _ ih => exact ih pending
  | @binary rule _ _ _ operator _ _ _ hop _ _ ihl ihr =>
    have hstep : step (settle pending) operator = some ⟨true, (settle pending).pending⟩ :=
      step_of_chained (Rule.mem_expression_chained_of_mem_operators hop)
    simp [run_append, ihl, hstep, ihr]
  | unary hop _ ih => simp [step_of_unary hop, ih]
  | leaf h => simp [step_of_leaf? h]
  | grouping hl hr _ ih =>
    simp [step_of_leftParen hl, run_append, ih, step_of_rightParen hr]

/-! ## Weights -/

theorem weight_le_peak : p.weight ≤ p.peak us := by
  cases us with
  | nil => exact Nat.le_refl _
  | cons u us =>
    rw [peak]
    split
    · exact Nat.le_max_left ..
    · exact Nat.le_refl _

theorem weight_le_peak_of_run (h : p.run us = some q) : q.weight ≤ p.peak (us ++ vs) := by
  induction us generalizing p with
  | nil =>
    cases h
    exact weight_le_peak
  | cons u us ih =>
    obtain ⟨r, hr, h⟩ := Option.bind_eq_some_iff.mp h
    simp only [List.cons_append, peak, hr]
    exact Nat.le_trans (ih h) (Nat.le_max_right ..)

theorem weight_settle_le : (settle pending).weight ≤ weight ⟨true, pending⟩ := by
  induction pending with
  | nil => exact Nat.le_refl _
  | cons frame pending ih =>
    cases frame with
    | unary =>
      simp only [weight, settle_unary, List.foldr_cons] at ih ⊢
      omega
    | parenthesis => exact Nat.le_refl _

theorem weight_le_of_step (h : p.step t = some q) : q.weight ≤ p.weight + 7 := by
  have hsettle : ∀ pending due, (settle pending).weight ≤ weight ⟨due, pending⟩ :=
    fun pending _ => weight_settle_le
  rcases step_cases h with
    ⟨-, -, rfl⟩ | ⟨-, -, rfl⟩ | ⟨-, -, rfl⟩ | ⟨-, -, rfl⟩ | ⟨-, -, outer, hp, rfl⟩
  · simp [weight, Frame.weight]; omega
  · simp [weight, Frame.weight]; omega
  · exact Nat.le_trans (hsettle p.pending p.due) (Nat.le_add_right ..)
  · exact Nat.le_add_right ..
  · have := hsettle outer true
    simp only [weight, hp, List.foldr_cons] at this ⊢
    omega

theorem weight_le_of_run (h : p.run us = some q) : q.weight ≤ p.weight + 7 * us.length := by
  induction us generalizing p with
  | nil =>
    cases h
    exact Nat.le_refl _
  | cons u us ih =>
    obtain ⟨r, hr, h⟩ := Option.bind_eq_some_iff.mp h
    have := ih h
    have := weight_le_of_step hr
    simp only [List.length_cons]
    omega

end Progress

/-- The greatest nesting on the way to the end of the tokens or the first that cannot come next:
seven for each parenthesis and one for each unary operator around a point. -/
def nesting (tokens : List Token) : Nat := Progress.start.peak tokens

end Grammar

end LoxSyntax
