import LoxSyntax.Proofs.Grammar.Derivation

/-! # Normal trees

`Expr.normal` inserts a grouping around each operand whose operator is too loose for its place. The
trees that it leaves as they are (`Expr.Normal`) are exactly those that derive from the grammar: a
normal tree derives its own tokens (`Expr.Yields.derives`), and whatever tokens derive is a normal
tree (`Grammar.Derives.normal`). -/

namespace LoxSyntax

/-- The rank of the rule that an operator belongs to, which is looser if the rank is less. -/
def Kind.precedence (kind : Kind) : Nat := Rule.all.findIdx (kind ∈ ·.operators)

namespace Expr

/-- The tree is a binary one whose operator is looser than the rank. -/
def looserThan (rank : Nat) : Expr → Bool
  | binary _ operator _ => operator.kind.precedence < rank
  | _ => false

/-- The tree as an operand in a place of the rank. -/
def operand (rank : Nat) (e : Expr) : Expr :=
  if e.looserThan rank then .grouping e e.line else e

/-- The tree with a grouping around each operand that needs one: a left operand that is looser than
its parent, a right operand that is looser or equal, and a binary operand of a unary operator. -/
def normal : Expr → Expr
  | grouping inner line => .grouping inner.normal line
  | unary operator right => .unary operator (right.normal.operand Rule.unary.rank)
  | binary left operator right =>
    .binary (left.normal.operand operator.kind.precedence) operator
      (right.normal.operand (operator.kind.precedence + 1))
  | e => e

/-- No operand needs a grouping. -/
def Normal : Expr → Prop
  | grouping inner _ => inner.Normal
  | unary _ right => right.Normal ∧ right.looserThan Rule.unary.rank = false
  | binary left operator right =>
    left.Normal ∧ left.looserThan operator.kind.precedence = false ∧
      right.Normal ∧ right.looserThan (operator.kind.precedence + 1) = false
  | _ => True

/-- The tokens of the tree from left to right, whatever the precedence of its operators. -/
inductive Yields : Expr → List Token → Prop
  | leaf {t e} : t.leaf? = some e → Yields e [t]
  | grouping {opening inner ts closing} : opening.kind = .leftParen → closing.kind = .rightParen →
      Yields inner ts → Yields (.grouping inner opening.line) (opening :: ts ++ [closing])
  | unary {operator right ts} : operator.kind ∈ Rule.unaryOperators → Yields right ts →
      Yields (.unary operator right) (operator :: ts)
  | binary {left ls operator right rs} : operator.kind ∈ Rule.expression.chained →
      Yields left ls → Yields right rs → Yields (.binary left operator right) (ls ++ operator :: rs)

variable {e : Expr} {rank : Nat}

theorem operand_of_not_looserThan (h : e.looserThan rank = false) : e.operand rank = e := by
  simp [operand, h]

theorem looserThan_operand : (e.operand rank).looserThan rank = false := by
  simp only [operand]
  split
  · rfl
  · simp_all

theorem looserThan_mono {loose tight : Nat} (h : loose ≤ tight) (he : e.looserThan tight = false) :
    e.looserThan loose = false := by
  cases e with
  | binary => exact decide_eq_false fun hlt => of_decide_eq_false he (Nat.lt_of_lt_of_le hlt h)
  | _ => rfl

theorem Normal.operand (h : e.Normal) : (e.operand rank).Normal := by
  simp only [Expr.operand]
  split
  · exact h
  · exact h

theorem normal_normal (e : Expr) : e.normal.Normal := by
  induction e with
  | grouping _ _ ih => exact ih
  | unary _ _ ih => exact ⟨ih.operand, looserThan_operand⟩
  | binary _ _ _ ihl ihr => exact ⟨ihl.operand, looserThan_operand, ihr.operand, looserThan_operand⟩
  | literal | reference | unknown => trivial

/-- The normal trees are those that normalizing leaves as they are. -/
theorem normal_iff : e.Normal ↔ e.normal = e := by
  refine ⟨fun h => ?_, fun h => h ▸ normal_normal e⟩
  induction e with
  | grouping _ _ ih => rw [normal, ih h]
  | unary _ _ ih => rw [normal, ih h.1, operand_of_not_looserThan h.2]
  | binary _ _ _ ihl ihr =>
    obtain ⟨hl, hleft, hr, hright⟩ := h
    rw [normal, ihl hl, ihr hr, operand_of_not_looserThan hleft, operand_of_not_looserThan hright]
  | literal | reference | unknown => rfl

end Expr

namespace Rule

variable {rule tighter : Rule} {kind : Kind}

theorem rank_of_next? (h : rule.next? = some tighter) : tighter.rank = rule.rank + 1 := by
  cases rule <;> cases h <;> rfl

theorem rank_injective (h : rule.rank = tighter.rank) : rule = tighter := by
  cases rule <;> cases tighter <;> first | rfl | cases h

theorem exists_next (h : rule.rank < tighter.rank) :
    ∃ next : Rule, rule.next? = some next ∧ next.rank ≤ tighter.rank := by
  have hnext : ∀ next, rule.next? = some next → next.rank ≤ tighter.rank := fun next hnext =>
    rank_of_next? hnext ▸ h
  cases rule with
  | primary => cases tighter <;> exact absurd h (by decide)
  | _ => exact ⟨_, rfl, hnext _ rfl⟩

theorem precedence_of_mem_operators (h : kind ∈ rule.operators) : kind.precedence = rule.rank := by
  cases rule <;> cases kind <;> revert h <;> decide

theorem precedence_lt_unary (h : kind ∈ expression.chained) : kind.precedence < unary.rank := by
  cases kind <;> revert h <;> decide

theorem exists_operators_of_mem_chained (h : kind ∈ expression.chained) :
    ∃ rule tighter : Rule, rule.next? = some tighter ∧ kind ∈ rule.operators := by
  obtain ⟨rule, -, hkind⟩ := List.mem_flatMap.1 h
  cases rule with
  | expression | unary | primary => simp [operators] at hkind
  | _ => exact ⟨_, _, rfl, hkind⟩

end Rule

namespace Grammar

variable {rule tighter : Rule} {ts : List Token} {e : Expr}

namespace Derives

theorem loosen (h : Derives tighter ts e) (hrank : rule.rank ≤ tighter.rank) :
    Derives rule ts e := by
  generalize hn : tighter.rank - rule.rank = n
  induction n generalizing rule with
  | zero =>
    obtain rfl : rule = tighter := Rule.rank_injective (by omega)
    exact h
  | succ n ih =>
    obtain ⟨next, hnext, hle⟩ := Rule.exists_next (show rule.rank < tighter.rank by omega)
    exact .descend hnext (ih hle (by rw [Rule.rank_of_next? hnext]; omega))

/-- Whatever tokens derive is a normal tree that needs no grouping in a place of the rule. -/
theorem normal (h : Derives rule ts e) : e.Normal ∧ e.looserThan rule.rank = false := by
  induction h with
  | descend hnext _ ih =>
    exact ⟨ih.1, Expr.looserThan_mono (by simp [Rule.rank_of_next? hnext]) ih.2⟩
  | binary hnext hop _ _ ihl ihr =>
    rw [Rule.rank_of_next? hnext] at ihr
    simp only [Expr.Normal, Expr.looserThan, Rule.precedence_of_mem_operators hop]
    exact ⟨⟨ihl.1, ihl.2, ihr.1, ihr.2⟩, by simp⟩
  | unary _ _ ih => exact ⟨ih, rfl⟩
  | leaf h =>
    simp only [Token.leaf?] at h
    split at h <;> cases h <;> exact ⟨trivial, rfl⟩
  | grouping _ _ _ ih => exact ⟨ih.1, rfl⟩

end Derives

end Grammar

namespace Expr

/-- The rank of the tightest rule that a tree of this form derives from. -/
def rank : Expr → Nat
  | binary _ operator _ => operator.kind.precedence
  | unary .. => Rule.unary.rank
  | _ => Rule.primary.rank

variable {e : Expr} {ts : List Token} {rank : Nat}

theorem rank_of_leaf? {t : Token} (h : t.leaf? = some e) : e.rank = Rule.primary.rank := by
  simp only [Token.leaf?] at h
  split at h <;> cases h <;> rfl

theorem Yields.le_rank (h : Yields e ts) (hrank : rank ≤ Rule.unary.rank)
    (he : e.looserThan rank = false) : rank ≤ e.rank := by
  have hprimary : rank ≤ Rule.primary.rank := Nat.le_trans hrank (by decide)
  cases h with
  | leaf h => exact rank_of_leaf? h ▸ hprimary
  | grouping => exact hprimary
  | unary => exact hrank
  | binary => exact Nat.not_lt.1 (of_decide_eq_false he)

/-- A normal tree derives its tokens from every rule that its form allows. -/
theorem Yields.derives (h : Yields e ts) (he : e.Normal) {rule : Rule} (hrank : rule.rank ≤ e.rank) :
    Grammar.Derives rule ts e := by
  induction h generalizing rule with
  | leaf h => exact (Grammar.Derives.leaf h).loosen (rank_of_leaf? h ▸ hrank)
  | grouping hl hr _ ih => exact (Grammar.Derives.grouping hl hr (ih he (Nat.zero_le _))).loosen hrank
  | unary hop h ih =>
    have hright := ih he.1 (h.le_rank (Nat.le_refl _) he.2)
    exact (Grammar.Derives.unary hop hright).loosen hrank
  | @binary left ls operator right rs hop hls hrs ihl ihr =>
    -- The operands derive from the rule of the operator and from the next tighter one.
    obtain ⟨hl, hleft, hr, hright⟩ := he
    obtain ⟨level, tighter, hnext, hmem⟩ := Rule.exists_operators_of_mem_chained hop
    have hlt := Rule.precedence_lt_unary hop
    have hprecedence := Rule.precedence_of_mem_operators hmem
    have hls' : Grammar.Derives level ls left :=
      ihl hl (hprecedence ▸ hls.le_rank (Nat.le_of_lt hlt) hleft)
    have hrs' : Grammar.Derives tighter rs right :=
      ihr hr (Rule.rank_of_next? hnext ▸ hprecedence ▸ hrs.le_rank hlt hright)
    exact (Grammar.Derives.binary hnext hmem hls' hrs').loosen (hprecedence ▸ hrank)

end Expr

end LoxSyntax
