import LoxSyntax.Proofs.Grammar.Progress

/-! # The weights on the way

A run passes the points of its tokens one by one, so its peak is the greater one of the peaks of its
parts (`Progress.peak_append`), and an operand adds its own nesting to the weight of the point that it
begins at (`Progress.peak_of_derives`). Behind an operand the weight is what it was before, so the
links of a chain of binary operators add nothing but the nesting of the deepest of them
(`nesting_links`). -/

namespace LoxSyntax

namespace Grammar

/-- A settled operand that is not the operand of a unary operator. -/
def Settled (pending : List Frame) : Prop := Progress.settle pending = ⟨false, pending⟩

namespace Progress

variable {p q : Progress} {t : Token} {us vs : List Token} {pending : List Frame} {limit k : Nat}
  {rule : Rule} {e : Expr}

theorem peak_cons (h : p.step t = some q) : p.peak (t :: us) = max p.weight (q.peak us) := by
  rw [peak, h]

theorem peak_of_step_eq_none (h : p.step t = none) : p.peak (t :: us) = p.weight := by
  rw [peak, h]

theorem peak_append (h : p.run us = some q) : p.peak (us ++ vs) = max (p.peak us) (q.peak vs) := by
  induction us generalizing p with
  | nil =>
    cases h
    exact (Nat.max_eq_right weight_le_peak).symm
  | cons u us ih =>
    obtain ⟨r, hr, h⟩ := Option.bind_eq_some_iff.mp h
    rw [List.cons_append, peak_cons hr, peak_cons hr, ih h, Nat.max_assoc]

/-- What is behind a point at which nothing can go on has no weight. -/
theorem peak_append_of_stuck (h : p.run us = some q) (hstuck : ∀ t ∈ vs.head?, q.step t = none) :
    p.peak (us ++ vs) = p.peak us := by
  have hq : q.peak vs = q.weight := by
    cases vs with
    | nil => rfl
    | cons t vs => exact peak_of_step_eq_none (hstuck t rfl)
  have hle : q.weight ≤ p.peak (us ++ []) := weight_le_peak_of_run h
  rw [List.append_nil] at hle
  rw [peak_append h, hq, Nat.max_eq_left hle]

/-- The peak is a bound on all points on the way, and the least one. -/
theorem peak_le_iff : p.peak us ≤ limit ↔ ∀ k, ∀ q ∈ p.run (us.take k), q.weight ≤ limit := by
  induction us generalizing p with
  | nil => simp [peak]
  | cons u us ih =>
    cases hstep : p.step u with
    | none =>
      rw [peak_of_step_eq_none hstep]
      refine ⟨fun h k q hq => ?_, fun h => h 0 p rfl⟩
      cases k with
      | zero =>
        cases hq
        exact h
      | succ k => simp [hstep] at hq
    | some r =>
      rw [peak_cons hstep, Nat.max_le, ih]
      constructor
      · rintro ⟨hp, h⟩ k q hq
        cases k with
        | zero =>
          cases hq
          exact hp
        | succ k => exact h k q (by simpa [hstep] using hq)
      · intro h
        exact ⟨h 0 p rfl, fun k q hq => h (k + 1) q (by simpa [hstep] using hq)⟩

/-! ## Operands -/

theorem run_settled_of_derives (h : Derives rule us e) (hs : Settled pending) :
    run ⟨true, pending⟩ us = some ⟨false, pending⟩ :=
  (run_of_derives h pending).trans (congrArg some hs)

/-- An operand adds its nesting to the weight of the point before it. Only operands of unary
operators may begin under a pending one. -/
theorem peak_of_derives (h : Derives rule us e)
    (hpending : rule = .unary ∨ rule = .primary ∨ Settled pending) :
    peak ⟨true, pending⟩ us = weight ⟨true, pending⟩ + e.nesting := by
  induction h generalizing pending with
  | @descend rule tighter _ _ hnext _ ih =>
    refine ih ?_
    rcases hpending with rfl | rfl | hs
    · cases hnext
      exact .inr (.inl rfl)
    · cases hnext
    · exact .inr (.inr hs)
  | @binary rule tighter ls left operator rs right hnext hop hl hr ihl ihr =>
    have hs : Settled pending := by
      rcases hpending with rfl | rfl | hs
      · cases hop
      · cases hop
      · exact hs
    have hstep : step ⟨false, pending⟩ operator = some ⟨true, pending⟩ :=
      step_of_chained (Rule.mem_expression_chained_of_mem_operators hop)
    have hweight : weight ⟨false, pending⟩ = weight ⟨true, pending⟩ := rfl
    rw [peak_append (run_settled_of_derives hl hs), peak_cons hstep, ihl (.inr (.inr hs)),
      ihr (.inr (.inr hs)), Expr.nesting, hweight]
    omega
  | unary hop _ ih =>
    rw [peak_cons (step_of_unary hop), ih (.inl rfl), Expr.nesting]
    simp only [weight, List.foldr_cons, Frame.weight]
    omega
  | leaf h =>
    rw [peak_cons (step_of_leaf? h), Token.nesting_of_leaf? h]
    exact Nat.max_eq_left weight_settle_le
  | @grouping opening ts e closing hl hr hd ih =>
    have hs : Settled (.parenthesis :: pending) := rfl
    have hle : (settle pending).weight ≤ weight ⟨true, pending⟩ := weight_settle_le
    rw [List.cons_append, peak_cons (step_of_leftParen hl), peak_append (run_settled_of_derives hd hs),
      peak_cons (step_of_rightParen hr), ih (.inr (.inr hs)), Expr.nesting]
    simp only [peak, weight, List.foldr_cons, Frame.weight] at hle ⊢
    omega

/-! ## Points up to a limit -/

/-- The tokens are taken at points whose weights are within the limit. -/
def Under (limit : Nat) (p : Progress) : List Token → Prop
  | [] => True
  | t :: ts => p.weight ≤ limit ∧ ∀ q ∈ p.step t, q.Under limit ts

theorem under_cons (h : p.step t = some q) :
    p.Under limit (t :: us) ↔ p.weight ≤ limit ∧ q.Under limit us := by
  simp [Under, h]

theorem under_append (h : p.run us = some q) :
    p.Under limit (us ++ vs) ↔ p.Under limit us ∧ q.Under limit vs := by
  induction us generalizing p with
  | nil =>
    cases h
    simp [Under]
  | cons u us ih =>
    obtain ⟨r, hr, h⟩ := Option.bind_eq_some_iff.mp h
    rw [List.cons_append, under_cons hr, under_cons hr, ih h, and_assoc]

/-- Every point that something is taken at is within the limit. -/
theorem under_iff : p.Under limit us ↔ ∀ k < us.length, ∀ q ∈ p.run (us.take k), q.weight ≤ limit := by
  induction us generalizing p with
  | nil => simp [Under]
  | cons u us ih =>
    constructor
    · rintro ⟨hp, hrest⟩ k hk q hq
      cases k with
      | zero =>
        cases hq
        exact hp
      | succ k =>
        obtain ⟨r, hr, hq⟩ := Option.bind_eq_some_iff.mp hq
        exact ih.1 (hrest r hr) k (Nat.lt_of_succ_lt_succ hk) q hq
    · intro h
      refine ⟨h 0 (Nat.succ_pos _) p rfl, fun r hr => ih.2 fun k hk q hq => ?_⟩
      refine h (k + 1) (Nat.succ_lt_succ hk) q ?_
      rw [List.take_succ_cons, run_cons, hr]
      exact hq

theorem peak_le_iff_of_run (h : p.run us = some q) :
    p.peak us ≤ limit ↔ p.Under limit us ∧ q.weight ≤ limit := by
  induction us generalizing p with
  | nil =>
    cases h
    simp [Under, peak]
  | cons u us ih =>
    obtain ⟨r, hr, h⟩ := Option.bind_eq_some_iff.mp h
    rw [under_cons hr, peak_cons hr, Nat.max_le, ih h, and_assoc]

/-- An operand within the limit. -/
theorem under_of_derives (h : Derives rule us e) (hs : Settled pending)
    (hn : weight ⟨true, pending⟩ + e.nesting ≤ limit) : Under limit ⟨true, pending⟩ us := by
  have hpeak := peak_of_derives h (.inr (.inr hs))
  exact ((peak_le_iff_of_run (run_settled_of_derives h hs)).1 (hpeak ▸ hn)).1

theorem settled_of_step (h : p.step t = some q) (hdue : q.due = false) : Settled q.pending := by
  rcases step_cases h with
    ⟨-, -, rfl⟩ | ⟨-, -, rfl⟩ | ⟨-, -, rfl⟩ | ⟨-, -, rfl⟩ | ⟨-, -, outer, -, rfl⟩
  · cases hdue
  · cases hdue
  · exact settle_pending_settle
  · cases hdue
  · exact settle_pending_settle

/-- Behind an operand no unary operator is pending. -/
theorem settled_of_run (hp : p.due = false → Settled p.pending) (h : p.run us = some q) :
    q.due = false → Settled q.pending := by
  induction us generalizing p with
  | nil =>
    cases h
    exact hp
  | cons u us ih =>
    obtain ⟨r, hr, h⟩ := Option.bind_eq_some_iff.mp h
    exact ih (settled_of_step hr) h

end Progress

/-! ## Chains -/

/-- A link of a chain: a binary operator and its right operand. -/
structure Link where
  operator : Token
  operand : List Token
  tree : Expr
  mem_chained : operator.kind ∈ Rule.expression.chained
  derives : Derives .unary operand tree

def Link.tokens (link : Link) : List Token := link.operator :: link.operand

/-- The nesting of the deepest operand. -/
def Link.depth (links : List Link) : Nat := (links.map (·.tree.nesting)).foldr max 0

section Links

open Progress

variable {q : Progress} {before after us : List Token} {pending : List Frame}

theorem Link.run_tokens (link : Link) (hs : Settled pending) :
    run ⟨false, pending⟩ link.tokens = some ⟨false, pending⟩ := by
  have hstep : step ⟨false, pending⟩ link.operator = some ⟨true, pending⟩ :=
    step_of_chained link.mem_chained
  rw [tokens, run_cons, hstep, Option.bind_some, run_settled_of_derives link.derives hs]

theorem Link.peak_tokens (link : Link) (pending : List Frame) :
    peak ⟨false, pending⟩ link.tokens = weight ⟨false, pending⟩ + link.tree.nesting := by
  have hstep : step ⟨false, pending⟩ link.operator = some ⟨true, pending⟩ :=
    step_of_chained link.mem_chained
  have hweight : weight ⟨false, pending⟩ = weight ⟨true, pending⟩ := rfl
  rw [tokens, peak_cons hstep, peak_of_derives link.derives (.inl rfl), hweight]
  omega

/-- A chain goes back to the point that it began at, and has climbed no further than the deepest of
its operands. -/
theorem Link.peak_links_append (links : List Link) (hs : Settled pending) :
    peak ⟨false, pending⟩ (links.flatMap Link.tokens ++ after) =
      max (weight ⟨false, pending⟩ + depth links) (peak ⟨false, pending⟩ after) := by
  induction links with
  | nil => exact (Nat.max_eq_right weight_le_peak).symm
  | cons link links ih =>
    rw [List.flatMap_cons, List.append_assoc, Progress.peak_append (link.run_tokens hs), ih,
      link.peak_tokens]
    simp only [depth, List.map_cons, List.foldr_cons]
    omega

/-- However many binary operators are put behind an operand, only what is nested in one of their right
operands counts. -/
theorem nesting_links (h : run start before = some q) (hdue : q.due = false) (links : List Link)
    (after : List Token) :
    nesting (before ++ links.flatMap Link.tokens ++ after) =
      max (nesting (before ++ after)) (q.weight + Link.depth links) := by
  obtain ⟨due, pending⟩ := q
  obtain rfl : due = false := hdue
  have hs : Settled pending := settled_of_run (fun hstart => absurd hstart (by decide)) h rfl
  rw [nesting, nesting, List.append_assoc, Progress.peak_append h, Progress.peak_append h,
    Link.peak_links_append links hs]
  omega

end Links

end Grammar

end LoxSyntax
