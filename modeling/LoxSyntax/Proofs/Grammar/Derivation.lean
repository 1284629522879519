import LoxSyntax.Grammar.Descent

/-! # Derivations of expressions

`Grammar.Derives rule tokens e` says that the tokens derive the tree `e` from the nonterminal
`rule`. It is the grammar read as a set of productions, without a reader: a binary level is left
recursive, so its chains are left folds, and a unary operator nests to the right.

The levels are ordered by `Rule.rank`. `Rule.chained` collects the binary operators of a rule and
of all tighter ones, which are the tokens that would prolong an expression of the rule, and
`Expr.nesting` is the weight of the deepest point of a tree. -/

namespace LoxSyntax

namespace Rule

def all : List Rule := [expression, equality, comparison, term, factor, unary, primary]

/-- The place of a rule among all of them, loosest first. -/
def rank (rule : Rule) : Nat := all.idxOf rule

/-- The next tighter rule, which the operands of a rule belong to. -/
def next? : Rule → Option Rule
  | expression => some equality
  | equality => some comparison
  | comparison => some term
  | term => some factor
  | factor => some unary
  | unary => some primary
  | primary => none

/-- The binary operators of a rule and of all tighter rules. -/
def chained (rule : Rule) : List Kind :=
  (all.filter (rule.rank ≤ ·.rank)).flatMap operators

end Rule

/-- The kinds of the tokens that are an operand by themselves. -/
def Kind.leaves : List Kind := [.falseWord, .trueWord, .nilWord, .number, .string, .identifier]

/-- The leaf that a token is by itself: a constant or a name. -/
def Token.leaf? (t : Token) : Option Expr :=
  match t.kind with
  | .falseWord => some (.literal (.bool false) t.line)
  | .trueWord => some (.literal (.bool true) t.line)
  | .nilWord => some (.literal .nil t.line)
  | .number | .string => some (.literal t.literal t.line)
  | .identifier => some (.reference t)
  | _ => none

/-- The weight of the deepest point of an expression: seven for each grouping and one for each
unary operator around it. -/
def Expr.nesting : Expr → Nat
  | grouping inner _ => inner.nesting + 7
  | unary _ right => right.nesting + 1
  | binary left _ right => max left.nesting right.nesting
  | literal .. | reference _ | unknown => 0

namespace Grammar

/-- The tokens derive the expression from the rule. -/
inductive Derives : Rule → List Token → Expr → Prop
  | descend {rule tighter ts e} : rule.next? = some tighter →
      Derives tighter ts e → Derives rule ts e
  | binary {rule tighter ls left operator rs right} : rule.next? = some tighter →
      operator.kind ∈ rule.operators → Derives rule ls left → Derives tighter rs right →
      Derives rule (ls ++ operator :: rs) (.binary left operator right)
  | unary {operator ts e} : operator.kind ∈ Rule.unaryOperators → Derives .unary ts e →
      Derives .unary (operator :: ts) (.unary operator e)
  | leaf {t e} : t.leaf? = some e → Derives .primary [t] e
  | grouping {opening ts e closing} : opening.kind = .leftParen → closing.kind = .rightParen →
      Derives .expression ts e →
      Derives .primary (opening :: ts ++ [closing]) (.grouping e opening.line)

/-- No token comes next that would prolong an expression of the rule. -/
def Stops (rule : Rule) (rest : List Token) : Prop :=
  ∀ t ∈ rest.head?, t.kind ∉ rule.chained

end Grammar

namespace Rule

variable {rule tighter : Rule}

theorem mem_chained {kind : Kind} (h : rule.next? = some tighter) :
    kind ∈ rule.chained ↔ kind ∈ rule.operators ∨ kind ∈ tighter.chained := by
  cases rule <;> cases h <;> cases kind <;> decide

theorem not_mem_chained_of_mem_operators {kind : Kind} (h : rule.next? = some tighter)
    (hk : kind ∈ rule.operators) : kind ∉ tighter.chained := by
  cases rule <;> cases h <;> cases kind <;> revert hk <;> decide

theorem mem_expression_chained_of_mem_operators {kind : Kind} (h : kind ∈ rule.operators) :
    kind ∈ expression.chained := by
  cases rule <;> cases kind <;> revert h <;> decide

theorem eof_not_mem_operators : .eof ∉ rule.operators := by
  cases rule <;> decide

end Rule

namespace Token

variable {t : Token} {e : Expr}

theorem isEnd_eq_false (h : t.kind ≠ .eof) : t.isEnd = false := by
  simp [isEnd, h]

theorem isEnd_eq_false_of_mem {kinds : List Kind} (h : t.kind ∈ kinds) (heof : .eof ∉ kinds) :
    t.isEnd = false :=
  isEnd_eq_false fun hk => heof (hk ▸ h)

theorem isSome_leaf?_iff : t.leaf?.isSome ↔ t.kind ∈ Kind.leaves := by
  obtain ⟨kind, _, _, _⟩ := t
  cases kind <;> simp [leaf?, Kind.leaves]

theorem kind_mem_leaves (h : t.leaf? = some e) : t.kind ∈ Kind.leaves :=
  isSome_leaf?_iff.1 (Option.isSome_of_eq_some h)

theorem isEnd_eq_false_of_leaf? (h : t.leaf? = some e) : t.isEnd = false :=
  isEnd_eq_false fun hk => absurd (hk ▸ kind_mem_leaves h) (by decide)

theorem nesting_of_leaf? (h : t.leaf? = some e) : e.nesting = 0 := by
  simp only [leaf?] at h
  split at h <;> cases h <;> rfl

theorem not_mem_unaryOperators_of_leaf? (h : t.leaf? = some e) : t.kind ∉ Rule.unaryOperators :=
  have apart : ∀ kind ∈ Kind.leaves, kind ∉ Rule.unaryOperators := by decide
  apart _ (kind_mem_leaves h)

end Token

namespace Grammar

variable {rule tighter : Rule} {ts rest : List Token} {e : Expr}

theorem Stops.nil : Stops rule [] := by simp [Stops]

theorem stops_cons {t : Token} : Stops rule (t :: rest) ↔ t.kind ∉ rule.chained := by
  simp [Stops]

theorem Stops.of_chained_eq_nil (h : rule.chained = []) : Stops rule rest := by
  simp [Stops, h]

theorem Stops.of_isEnd (h : ∀ t ∈ rest.head?, t.isEnd) : Stops rule rest := by
  intro t ht hmem
  have hk : t.kind = .eof := by simpa [Token.isEnd] using h t ht
  rw [hk] at hmem
  revert hmem
  cases rule <;> decide

theorem stops_iff (h : rule.next? = some tighter) :
    Stops rule rest ↔ Stops tighter rest ∧ ∀ t ∈ rest.head?, t.kind ∉ rule.operators := by
  simp only [Stops, Rule.mem_chained h, not_or]
  exact ⟨fun H => ⟨fun t ht => (H t ht).2, fun t ht => (H t ht).1⟩,
    fun H t ht => ⟨H.2 t ht, H.1 t ht⟩⟩

namespace Derives

theorem isEnd_eq_false (h : Derives rule ts e) : ∀ t ∈ ts, t.isEnd = false := by
  induction h with
  | descend _ _ ih => exact ih
  | binary _ hop _ _ ihl ihr =>
    intro t ht
    rcases List.mem_append.mp ht with ht | ht
    · exact ihl t ht
    rcases List.mem_cons.mp ht with rfl | ht
    · exact Token.isEnd_eq_false_of_mem hop Rule.eof_not_mem_operators
    · exact ihr t ht
  | unary hop _ ih =>
    intro t ht
    rcases List.mem_cons.mp ht with rfl | ht
    · exact Token.isEnd_eq_false_of_mem hop (by decide)
    · exact ih t ht
  | leaf h => simpa using Token.isEnd_eq_false_of_leaf? h
  | grouping hl hr _ ih =>
    intro t ht
    simp only [List.cons_append, List.mem_cons, List.mem_append, List.not_mem_nil, or_false] at ht
    rcases ht with rfl | ht | rfl
    · exact Token.isEnd_eq_false (by simp [hl])
    · exact ih t ht
    · exact Token.isEnd_eq_false (by simp [hr])

end Derives

end Grammar

end LoxSyntax
