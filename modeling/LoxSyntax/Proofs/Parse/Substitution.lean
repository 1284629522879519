import LoxSyntax.Proofs.Grammar.Limit
import LoxSyntax.Proofs.Grammar.Relabelling
import LoxSyntax.Proofs.Parse.Acceptance

/-! # A group in the place of an operand

An `Expr.Context` is a tree with a hole, and `Expr.Context.before` says how many tokens stand before the
hole. A leaf of a derived tree fills such a context, and any other primary expression may fill it
instead (`Grammar.Derives.exists_context`). So an operand of an accepted token list may be replaced by
another accepted list in parentheses: the rest of the tree stays as it is (`parseTokens_replaceByGroup`). -/

namespace LoxSyntax

/-- A tree with a hole in the place of one of its operands. -/
inductive Expr.Context
  | hole
  | grouping (inner : Context) (line : Int)
  | unary (operator : Token) (right : Context)
  | binaryLeft (left : Context) (operator : Token) (right : Expr)
  | binaryRight (left : Expr) (operator : Token) (right : Context)

namespace Expr.Context

/-- The tree with an operand in the hole. -/
def fill : Context → Expr → Expr
  | hole, e => e
  | grouping inner line, e => .grouping (inner.fill e) line
  | unary operator right, e => .unary operator (right.fill e)
  | binaryLeft left operator right, e => .binary (left.fill e) operator right
  | binaryRight left operator right, e => .binary left operator (right.fill e)

/-- How many tokens stand before the hole. -/
def before : Context → Nat
  | hole => 0
  | grouping inner _ => inner.before + 1
  | unary _ right => right.before + 1
  | binaryLeft left _ _ => left.before
  | binaryRight left _ right => left.width + 1 + right.before

end Expr.Context

/-! ## Operands of a derivation -/

section Cases

variable {α : Type} {ls rs as bs : List α} {t u : α}

/-- Two ways of taking an element out of a list: the same one, or one before the other. -/
theorem append_cons_eq_append_cons (h : ls ++ t :: rs = as ++ u :: bs) :
    (∃ ms, as = ls ++ t :: ms ∧ rs = ms ++ u :: bs) ∨ t = u ∨
      ∃ ms, ls = as ++ u :: ms ∧ bs = ms ++ t :: rs := by
  rcases List.append_eq_append_iff.1 h with ⟨ms, rfl, hms⟩ | ⟨ms, rfl, hms⟩
  · cases ms with
    | nil => exact .inr (.inl (List.cons.inj hms).1)
    | cons m ms =>
      obtain ⟨rfl, rfl⟩ := List.cons.inj hms
      exact .inl ⟨ms, rfl, rfl⟩
  · cases ms with
    | nil => exact .inr (.inl (List.cons.inj hms).1.symm)
    | cons m ms =>
      obtain ⟨rfl, rfl⟩ := List.cons.inj hms
      exact .inr (.inr ⟨ms, rfl, rfl⟩)

end Cases

/-- An operand is no operator and no parenthesis. -/
theorem Token.ne_of_leaf? {t u : Token} {leaf : Expr} (hleaf : t.leaf? = some leaf)
    (hu : u.kind ∈ Rule.expression.chained ++ Rule.unaryOperators ++ [.leftParen, .rightParen]) :
    t ≠ u := by
  have apart : ∀ kind ∈ Kind.leaves,
      kind ∉ Rule.expression.chained ++ Rule.unaryOperators ++ [.leftParen, .rightParen] := by
    decide
  rintro rfl
  exact apart _ (kind_mem_leaves hleaf) hu

namespace Grammar.Derives

variable {rule : Rule} {ts ls rs us : List Token} {t : Token} {e leaf : Expr}

/-- The tree around a leaf is a context, in which any primary expression may stand. -/
theorem exists_context (h : Derives rule (ls ++ t :: rs) e) (hleaf : t.leaf? = some leaf) :
    ∃ C : Expr.Context, C.before = ls.length ∧ e = C.fill leaf ∧
      ∀ us new, Derives .primary us new → Derives rule (ls ++ us ++ rs) (C.fill new) := by
  generalize hts : ls ++ t :: rs = ts at h
  induction h generalizing ls rs with
  | descend hnext _ ih =>
    obtain ⟨C, hbefore, he, hfill⟩ := ih hts
    exact ⟨C, hbefore, he, fun us new hnew => .descend hnext (hfill us new hnew)⟩
  | @binary rule tighter ls' left operator rs' right hnext hop hl hr ihl ihr =>
    rcases append_cons_eq_append_cons hts with ⟨ms, rfl, rfl⟩ | heq | ⟨ms, rfl, rfl⟩
    · obtain ⟨C, hbefore, he, hfill⟩ := ihl rfl
      refine ⟨.binaryLeft C operator right, hbefore, congrArg (Expr.binary · operator right) he, ?_⟩
      intro us new hnew
      simpa [Expr.Context.fill] using Derives.binary hnext hop (hfill us new hnew) hr
    · have hmem := Rule.mem_expression_chained_of_mem_operators hop
      exact absurd heq (Token.ne_of_leaf? hleaf (by simp [hmem]))
    · obtain ⟨C, hbefore, he, hfill⟩ := ihr rfl
      refine ⟨.binaryRight left operator C, ?_, congrArg (Expr.binary left operator ·) he, ?_⟩
      · simp only [Expr.Context.before, hbefore, hl.width_eq, List.length_append, List.length_cons]
        omega
      · intro us new hnew
        simpa [Expr.Context.fill] using Derives.binary hnext hop hl (hfill us new hnew)
  | @unary operator ts right hop h ih =>
    cases ls with
    | nil =>
      obtain ⟨heq, -⟩ := List.cons.inj hts
      exact absurd heq (Token.ne_of_leaf? hleaf (by simp [hop]))
    | cons l ls =>
      obtain ⟨rfl, rfl⟩ := List.cons.inj hts
      obtain ⟨C, hbefore, he, hfill⟩ := ih rfl
      refine ⟨.unary l C, congrArg (· + 1) hbefore, congrArg (Expr.unary l ·) he, ?_⟩
      intro us new hnew
      exact .unary hop (hfill us new hnew)
  | @leaf u e hu =>
    cases ls with
    | nil =>
      obtain ⟨rfl, rfl⟩ := List.cons.inj hts
      refine ⟨.hole, rfl, Option.some.inj (hu.symm.trans hleaf), ?_⟩
      intro us new hnew
      simpa [Expr.Context.fill] using hnew
    | cons l ls => simp at hts
  | @grouping opening ts inner closing ho hc h ih =>
    cases ls with
    | nil =>
      obtain ⟨heq, -⟩ := List.cons.inj hts
      exact absurd heq (Token.ne_of_leaf? hleaf (by simp [ho]))
    | cons l ls =>
      obtain ⟨rfl, htail⟩ := List.cons.inj hts
      rcases append_cons_eq_append_cons htail with ⟨ms, rfl, rfl⟩ | heq | ⟨ms, -, hnil⟩
      · obtain ⟨C, hbefore, he, hfill⟩ := ih rfl
        refine ⟨.grouping C l.line, congrArg (· + 1) hbefore,
          congrArg (Expr.grouping · l.line) he, ?_⟩
        intro us new hnew
        simpa [Expr.Context.fill] using Derives.grouping ho hc (hfill us new hnew)
      · exact absurd heq (Token.ne_of_leaf? hleaf (by simp [hc]))
      · simp at hnil

end Grammar.Derives

/-! ## Replacing an operand -/

section Tokens

variable {as bs : List Token} {reporter reporter' : Reporter} {budget budget' i : Nat}
  {a opening closing : Token} {e e' : Expr}

/-- The tokens with a group in the place of one of them; the group has the tokens of another list
before its first end token. -/
def replaceByGroup (as : List Token) (i : Nat) (opening : Token) (bs : List Token)
    (closing : Token) : List Token :=
  as.take i ++ (opening :: bs.takeWhile (!·.isEnd) ++ [closing]) ++ as.drop (i + 1)

/-- A token before the first end token, with the tokens around it and those from the end token on. -/
theorem exists_around (ha : as[i]? = some a) (hi : i < as.findIdx Token.isEnd) :
    ∃ rs rest, as.takeWhile (!·.isEnd) = as.take i ++ a :: rs ∧ as.drop (i + 1) = rs ++ rest ∧
      ∀ t ∈ rest.head?, t.isEnd = true := by
  have hsentence : as.takeWhile (!·.isEnd) = as.take (as.findIdx Token.isEnd) := by
    simp [List.takeWhile_eq_take_findIdx_not]
  refine ⟨(as.take (as.findIdx Token.isEnd)).drop (i + 1), as.drop (as.findIdx Token.isEnd),
    ?_, ?_, ?_⟩
  · have hget : (as.take (as.findIdx Token.isEnd))[i]? = some a := by
      rw [List.getElem?_take_of_lt hi, ha]
    have htake : (as.take (as.findIdx Token.isEnd)).take i = as.take i := by
      rw [List.take_take, Nat.min_eq_left (Nat.le_of_lt hi)]
    obtain ⟨hlt, rfl⟩ := List.getElem?_eq_some_iff.1 hget
    rw [hsentence, ← htake, ← List.drop_eq_getElem_cons hlt, List.take_append_drop]
  · have hlt := (List.getElem?_eq_some_iff.1 ha).1
    have hlength : i + 1 ≤ (as.take (as.findIdx Token.isEnd)).length := by
      rw [List.length_take]
      omega
    rw [← List.drop_append_of_le_length hlength, List.take_append_drop]
  · intro t ht
    rw [List.head?_drop] at ht
    obtain ⟨hlt, rfl⟩ := List.getElem?_eq_some_iff.1 ht
    exact List.findIdx_getElem

/-- Let two token lists be accepted. With the second one in parentheses in the place of an operand of
the first one, the list is accepted too, if its nesting is at most 800. The tree of the first list is
a context around the leaf of the operand, and the tree of the new list is this context around the
group with the second tree. -/
theorem parseTokens_replaceByGroup
    (has : (parseTokens as reporter budget).1.map ParseResult.expr = .ok (some e))
    (hbs : (parseTokens bs reporter' budget').1.map ParseResult.expr = .ok (some e'))
    (ha : as[i]? = some a) (hi : i < as.findIdx Token.isEnd) (hleaf : a.kind ∈ Kind.leaves)
    (hopening : opening.kind = .leftParen) (hclosing : closing.kind = .rightParen)
    (hn : Grammar.nesting (replaceByGroup as i opening bs closing) ≤ 800) :
    ∃ (C : Expr.Context) (leaf : Expr), a.leaf? = some leaf ∧ C.before = i ∧ e = C.fill leaf ∧
      ∀ reporter, parseTokens (replaceByGroup as i opening bs closing) reporter =
        (.ok ⟨some (C.fill (.grouping e' opening.line)), []⟩, reporter) := by
  have hclosed := closed_of_parseTokens has
  have hderives := ((Parse.parseTokens_eq_ok_iff_derives hclosed).1 has).1
  have hgroup := ((Parse.parseTokens_eq_ok_iff_derives (closed_of_parseTokens hbs)).1 hbs).1
  obtain ⟨leaf, hleaf⟩ := Option.isSome_iff_exists.1 (Token.isSome_leaf?_iff.2 hleaf)
  obtain ⟨rs, rest, htake, hdrop, hend⟩ := exists_around ha hi
  rw [htake] at hderives
  obtain ⟨C, hbefore, rfl, hfill⟩ := hderives.exists_context hleaf
  have hlt : i + 1 < as.length := Nat.lt_of_le_of_lt hi (findIdx_isEnd_lt hclosed)
  have hnew := hfill _ _ (.grouping hopening hclosing hgroup)
  have hlist : replaceByGroup as i opening bs closing =
      as.take i ++ (opening :: bs.takeWhile (!·.isEnd) ++ [closing]) ++ rs ++ rest := by
    rw [replaceByGroup, hdrop, List.append_assoc _ rs]
  have hclosed' : (replaceByGroup as i opening bs closing).getLast?.any Token.isEnd := by
    obtain ⟨t, ht, hend⟩ := Option.any_eq_true .. |>.mp (closed_drop hclosed hlt)
    rw [replaceByGroup, List.getLast?_append, ht]
    exact hend
  have hbudget := Grammar.le_defaultBudget hn
  rw [hlist] at hbudget
  have hread := Grammar.readAll_of_derives hnew hend hbudget
  rw [← hlist] at hread
  refine ⟨C, leaf, hleaf, ?_, rfl, fun reporter => parseTokens_of_accept hclosed' hread⟩
  rw [hbefore, List.length_take, Nat.min_eq_left (by omega)]

/-- The tokens of `- a * b`. -/
def productTokens : List Token :=
  [⟨.minus, "-", .nil, 1⟩, ⟨.identifier, "a", .nil, 1⟩, ⟨.star, "*", .nil, 1⟩,
    ⟨.identifier, "b", .nil, 1⟩, ⟨.eof, "", .nil, 1⟩]

/-- The tokens of `x == y`. -/
def equationTokens : List Token :=
  [⟨.identifier, "x", .nil, 5⟩, ⟨.equalEqual, "==", .nil, 5⟩, ⟨.identifier, "y", .nil, 5⟩,
    ⟨.eof, "", .nil, 5⟩]

/-- In `- (x == y) * b` the group is the operand of the minus sign, as `a` is in `- a * b`. -/
theorem parseTokens_replaceByGroup_equation :
    let e := Expr.binary (.unary ⟨.minus, "-", .nil, 1⟩ (.reference ⟨.identifier, "a", .nil, 1⟩))
      ⟨.star, "*", .nil, 1⟩ (.reference ⟨.identifier, "b", .nil, 1⟩)
    let e' := Expr.binary (.reference ⟨.identifier, "x", .nil, 5⟩) ⟨.equalEqual, "==", .nil, 5⟩
      (.reference ⟨.identifier, "y", .nil, 5⟩)
    (parseTokens productTokens {}).1.map ParseResult.expr = .ok (some e) ∧
      (parseTokens equationTokens {}).1.map ParseResult.expr = .ok (some e') ∧
      1 < productTokens.findIdx Token.isEnd ∧
      Grammar.nesting (replaceByGroup productTokens 1 ⟨.leftParen, "(", .nil, 2⟩ equationTokens
        ⟨.rightParen, ")", .nil, 3⟩) ≤ 800 ∧
      ∃ (C : Expr.Context) (leaf : Expr),
        leaf = .reference ⟨.identifier, "a", .nil, 1⟩ ∧ C.before = 1 ∧ e = C.fill leaf ∧
          ∀ reporter, parseTokens (replaceByGroup productTokens 1 ⟨.leftParen, "(", .nil, 2⟩
              equationTokens ⟨.rightParen, ")", .nil, 3⟩) reporter =
            (.ok ⟨some (C.fill (.grouping e' 2)), []⟩, reporter) := by
  intro e e'
  have has : (parseTokens productTokens {}).1.map ParseResult.expr = .ok (some e) := by
    have hread : Grammar.readAll Grammar.defaultBudget productTokens = .accept e 4 := by cbv
    rw [parseTokens_of_accept (by decide) hread]
    rfl
  have hbs : (parseTokens equationTokens {}).1.map ParseResult.expr = .ok (some e') := by
    have hread : Grammar.readAll Grammar.defaultBudget equationTokens = .accept e' 3 := by cbv
    rw [parseTokens_of_accept (by decide) hread]
    rfl
  have hi : 1 < productTokens.findIdx Token.isEnd := by decide
  have hn : Grammar.nesting (replaceByGroup productTokens 1 ⟨.leftParen, "(", .nil, 2⟩ equationTokens
      ⟨.rightParen, ")", .nil, 3⟩) ≤ 800 := by
    decide
  obtain ⟨C, leaf, hleaf, hbefore, he, hnew⟩ :=
    parseTokens_replaceByGroup has hbs rfl hi (by decide) rfl rfl hn
  exact ⟨has, hbs, hi, hn, C, leaf, (Option.some.inj hleaf).symm, hbefore, he, hnew⟩

end Tokens

end LoxSyntax
