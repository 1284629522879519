import LoxSyntax.Proofs.Grammar.Recognition

/-! # Other tokens of the same kinds

The kinds of the tokens decide which rules derive them; the tree is then made from the tokens
themselves. `Expr.onTokens` puts the tokens of another list, one by one from left to right, in the
places of those that a tree was made from. A derivation goes over to every list of tokens of the same
kinds and to the tree with its tokens (`Grammar.Derives.onTokens`), and a derived tree has the tokens
that derive it in their places (`Grammar.Derives.onTokens_self`). -/

namespace LoxSyntax

namespace Expr

/-- How many tokens the tree is made from. -/
def width : Expr → Nat
  | grouping inner _ => inner.width + 2
  | unary _ right => right.width + 1
  | binary left _ right => left.width + 1 + right.width
  | literal .. | reference _ => 1
  | unknown => 0

/-- The tree with other tokens in the places of those that it was made from. Numbers and texts are the
values of their tokens; the other constants stay as they are. -/
def onTokens : Expr → List Token → Expr
  | literal value _, t :: _ =>
    .literal (if t.kind ∈ [.number, .string] then t.literal else value) t.line
  | grouping inner _, opening :: rest => .grouping (inner.onTokens rest) opening.line
  | unary _ right, operator :: rest => .unary operator (right.onTokens rest)
  | binary left operator right, tokens =>
    .binary (left.onTokens tokens) (tokens[left.width]?.getD operator)
      (right.onTokens (tokens.drop (left.width + 1)))
  | reference _, name :: _ => .reference name
  | e, _ => e

theorem nesting_onTokens (e : Expr) (tokens : List Token) :
    (e.onTokens tokens).nesting = e.nesting := by
  induction e generalizing tokens with
  | grouping _ _ ih | unary _ _ ih =>
    cases tokens with
    | nil => rfl
    | cons t rest => simp only [onTokens, nesting, ih]
  | binary _ _ _ ihl ihr => simp only [onTokens, nesting, ihl, ihr]
  | literal | reference | unknown => cases tokens <;> rfl

end Expr

theorem Token.leaf?_onTokens {t u : Token} {e : Expr} (h : t.leaf? = some e) (hkind : u.kind = t.kind)
    (rest : List Token) : u.leaf? = some (e.onTokens (u :: rest)) := by
  simp only [leaf?] at h ⊢
  rw [hkind]
  split at h <;> cases h <;> simp_all [Expr.onTokens]

namespace Grammar.Derives

variable {rule : Rule} {ts us : List Token} {e : Expr}

theorem width_eq (h : Derives rule ts e) : e.width = ts.length := by
  induction h with
  | descend _ _ ih => exact ih
  | binary _ _ _ _ ihl ihr =>
    simp only [Expr.width, ihl, ihr, List.length_append, List.length_cons]
    omega
  | unary _ _ ih => simp only [Expr.width, ih, List.length_cons]
  | leaf h =>
    simp only [Token.leaf?] at h
    split at h <;> cases h <;> rfl
  | grouping _ _ _ ih => simp [Expr.width, ih]

/-- Tokens of the same kinds derive the tree with these tokens in the places of the first ones. -/
theorem onTokens (h : Derives rule ts e) (hkinds : us.map Token.kind = ts.map Token.kind)
    (rest : List Token) : Derives rule us (e.onTokens (us ++ rest)) := by
  induction h generalizing us rest with
  | descend hnext _ ih => exact .descend hnext (ih hkinds rest)
  | @binary rule tighter ls left operator rs right hnext hop hl _ ihl ihr =>
    rw [List.map_append, List.map_cons] at hkinds
    obtain ⟨ls', us, rfl, hls, hkinds⟩ := List.map_eq_append_iff.1 hkinds
    obtain ⟨operator', rs', rfl, hoperator, hrs⟩ := List.map_eq_cons_iff.1 hkinds
    have hwidth : left.width = ls'.length := by
      rw [hl.width_eq, ← List.length_map Token.kind, ← hls, List.length_map]
    have hleft := ihl hls (operator' :: rs' ++ rest)
    have hbinary := Derives.binary hnext (hoperator ▸ hop) hleft (ihr hrs rest)
    simpa [Expr.onTokens, hwidth, List.drop_length_add_append] using hbinary
  | unary hop _ ih =>
    obtain ⟨operator', us, rfl, hoperator, hus⟩ := List.map_eq_cons_iff.1 hkinds
    exact .unary (hoperator ▸ hop) (ih hus rest)
  | leaf h =>
    obtain ⟨u, us, rfl, hkind, hus⟩ := List.map_eq_cons_iff.1 hkinds
    obtain rfl := List.map_eq_nil_iff.1 hus
    exact .leaf (Token.leaf?_onTokens h hkind rest)
  | @grouping opening ts e closing hl hr _ ih =>
    rw [List.cons_append, List.map_cons, List.map_append] at hkinds
    obtain ⟨opening', us, rfl, hopening, hkinds⟩ := List.map_eq_cons_iff.1 hkinds
    obtain ⟨us, closings, rfl, hus, hkinds⟩ := List.map_eq_append_iff.1 hkinds
    obtain ⟨closing', closings, rfl, hclosing, hnil⟩ := List.map_eq_cons_iff.1 hkinds
    obtain rfl := List.map_eq_nil_iff.1 hnil
    have hinner := ih hus (closing' :: rest)
    have hgroup := Derives.grouping (hopening.trans hl) (hclosing.trans hr) hinner
    simpa [Expr.onTokens] using hgroup

/-- Only the tokens that derive a tree have places in it. -/
theorem onTokens_append (h : Derives rule ts e) (hkinds : us.map Token.kind = ts.map Token.kind)
    (rest : List Token) : e.onTokens (us ++ rest) = e.onTokens us := by
  have hnil := h.onTokens hkinds []
  rw [List.append_nil] at hnil
  exact (h.onTokens hkinds rest).unique hnil

/-- The tokens that derive a tree are in their places in it. -/
theorem onTokens_self (h : Derives rule ts e) (rest : List Token) : e.onTokens (ts ++ rest) = e :=
  (h.onTokens rfl rest).unique h

end Grammar.Derives

end LoxSyntax
