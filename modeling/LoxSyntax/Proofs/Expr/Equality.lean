import LoxSyntax.Proofs.Json.Equality
import LoxSyntax.Proofs.Run.RoundTrip

/-! # Equality of trees and of their records

Equality of trees compares all of an operator or a name: kind, lexeme, value and line. A record has the
lexeme and the line only. For tokens of a scan the lexeme settles kind and value
(`Token.IsLexical.equals_eq`), so two trees of a scan are equal exactly if their records are, without the
lines of literals and groupings (`Expr.equals_comparedRecord`). -/

namespace LoxSyntax

/-! ## Tokens -/

namespace Number

/-- Only "not a number" differs from itself. -/
theorem equals_self {n : Number} (h : n ≠ nan) : n.equals n = true := by
  cases n with
  | nan => exact absurd rfl h
  | signed negative m => simp [equals]

end Number

theorem Literal.equals_self {literal : Literal} (h : literal.numeric? ≠ some .nan) :
    literal.equals literal = true := by
  cases hn : literal.numeric? with
  | none => simp [equals, hn]
  | some n =>
    have hself := Number.equals_self fun hnan => h (hnan ▸ hn)
    simp [equals, hn, hself]

/-- What a numeral denotes is a number. -/
theorem Segment.Denotes.numeric?_ne_nan {cls : LexicalClass} {text : List Char} {kind : Kind}
    {literal : Literal} (h : Denotes ⟨.lexeme cls, text⟩ kind literal) (hl : Lexeme cls text) :
    literal.numeric? ≠ some .nan := by
  cases h with
  | number h =>
    cases hl.ofText?_eq.symm.trans h
    nofun
  | _ => nofun

namespace Token

variable {t t' : Token}

theorem IsLexical.equals_self (h : t.IsLexical) : t.equals t = true := by
  obtain ⟨s, ⟨hl, -⟩, hmatches⟩ := h
  simp [equals, Literal.equals_self (hmatches.denotes.numeric?_ne_nan hl)]

/-- Tokens of a scan are equal if their lexemes and their lines are. -/
theorem IsLexical.equals_eq (h : t.IsLexical) (h' : t'.IsLexical) :
    t.equals t' = (decide (t.line = t'.line) && decide (t.lexeme = t'.lexeme)) := by
  rw [Bool.eq_iff_iff, Bool.and_eq_true, decide_eq_true_iff, decide_eq_true_iff]
  constructor
  · intro heq
    simp only [equals, Bool.and_eq_true, decide_eq_true_iff] at heq
    exact ⟨heq.2, heq.1.1.2⟩
  · rintro ⟨hline, hlexeme⟩
    obtain rfl := h.ext h' hlexeme hline
    exact h.equals_self

end Token

/-! ## Trees -/

namespace Expr

open Json (Entries Value)

variable {e e' : Expr}

/-- The record without the lines that equality of trees passes over. -/
def comparedRecord (e : Expr) : Value := e.record.withoutLines ["literal", "grouping"]

@[simp] theorem comparedRecord_literal (value : Literal) (line : Int) :
    (literal value line).comparedRecord =
      .object (.entry "kind" (.text "literal") (.entry "value" value.record .empty)) := by
  cases value <;> rfl

@[simp] theorem comparedRecord_grouping (inner : Expr) (line : Int) :
    (grouping inner line).comparedRecord =
      .object (.entry "kind" (.text "grouping")
        (.entry "expression" inner.comparedRecord .empty)) := rfl

@[simp] theorem comparedRecord_unary (operator : Token) (right : Expr) :
    (unary operator right).comparedRecord =
      .object (.entry "kind" (.text "unary") (.entry "line" (.integer operator.line)
        (.entry "operator" (.text operator.lexeme)
          (.entry "right" right.comparedRecord .empty)))) := rfl

@[simp] theorem comparedRecord_binary (left : Expr) (operator : Token) (right : Expr) :
    (binary left operator right).comparedRecord =
      .object (.entry "kind" (.text "binary") (.entry "line" (.integer operator.line)
        (.entry "operator" (.text operator.lexeme)
          (.entry "left" left.comparedRecord (.entry "right" right.comparedRecord .empty))))) := rfl

@[simp] theorem comparedRecord_reference (name : Token) :
    (reference name).comparedRecord =
      .object (.entry "kind" (.text "variable") (.entry "line" (.integer name.line)
        (.entry "name" (.text name.lexeme) .empty))) := rfl

theorem exists_comparedRecord_eq (e : Expr) :
    ∃ parts, e.comparedRecord = .object (.entry "kind" (.text e.kindName) parts) ∧
      "kind" ∉ parts.names := by
  cases e with
  | literal value line => exact ⟨_, comparedRecord_literal value line, by simp⟩
  | grouping inner line => exact ⟨_, comparedRecord_grouping inner line, by simp⟩
  | unary operator right => exact ⟨_, comparedRecord_unary operator right, by simp⟩
  | binary left operator right => exact ⟨_, comparedRecord_binary left operator right, by simp⟩
  | reference name => exact ⟨_, comparedRecord_reference name, by simp⟩
  | unknown => exact ⟨.entry "line" (.integer 0) .empty, rfl, by simp⟩

/-- Nodes of different kinds have different records. -/
theorem equals_comparedRecord_of_kindName_ne (h : e.kindName ≠ e'.kindName) :
    e.comparedRecord.equals e'.comparedRecord = false := by
  obtain ⟨parts, he, hkind⟩ := e.exists_comparedRecord_eq
  obtain ⟨parts', he', -⟩ := e'.exists_comparedRecord_eq
  rw [he, he', Value.equals_object_entry hkind, Value.equals_text, decide_eq_false h,
    Bool.false_and]

/-- Trees of a scan are equal exactly if their records are, without the lines of literals and
groupings. -/
theorem equals_comparedRecord (h : e.IsLexical) (h' : e'.IsLexical) :
    e.comparedRecord.equals e'.comparedRecord = e.equals e' := by
  induction e generalizing e' with
  | literal value line =>
    cases e' with
    | literal value' line' =>
      simp [equals]
    | _ => exact equals_comparedRecord_of_kindName_ne (by simp [kindName])
  | grouping inner line ih =>
    cases e' with
    | grouping inner' line' =>
      have hinner : inner'.IsLexical := h'
      simp [equals, ih h hinner]
    | _ => exact equals_comparedRecord_of_kindName_ne (by simp [kindName])
  | unary operator right ih =>
    cases e' with
    | unary operator' right' =>
      obtain ⟨hoperator, hright⟩ := h
      obtain ⟨hoperator', hright'⟩ := h'
      simp [equals, hoperator.equals_eq hoperator', ih hright hright', Bool.and_assoc]
    | _ => exact equals_comparedRecord_of_kindName_ne (by simp [kindName])
  | binary left operator right ihl ihr =>
    cases e' with
    | binary left' operator' right' =>
      obtain ⟨hl, hoperator, hr⟩ := h
      obtain ⟨hl', hoperator', hr'⟩ := h'
      simp [equals, hoperator.equals_eq hoperator', ihl hl hl', ihr hr hr', Bool.and_assoc,
        Bool.and_left_comm]
    | _ => exact equals_comparedRecord_of_kindName_ne (by simp [kindName])
  | reference name =>
    cases e' with
    | reference name' =>
      have hname : name.IsLexical := h
      simp [equals, hname.equals_eq h']
    | _ => exact equals_comparedRecord_of_kindName_ne (by simp [kindName])
  | unknown =>
    cases e' with
    | unknown => rfl
    | _ => exact equals_comparedRecord_of_kindName_ne (by simp [kindName])

/-- The trees of two runs are equal exactly if their records are, when the lines of literals and
groupings are left out and all other lines are kept. -/
theorem equals_iff_equals_comparedRecord {source source' : String}
    {reporter reporter' after after' : Reporter} {tokens tokens' : List Token}
    {result result' : ParseResult}
    (h : runSource source reporter = (.ok (tokens, result), after)) (he : result.expr = some e)
    (h' : runSource source' reporter' = (.ok (tokens', result'), after'))
    (he' : result'.expr = some e') :
    e.equals e' = true ↔ e.comparedRecord.equals e'.comparedRecord = true := by
  have hlexical := (derives_of_runSource h he).isLexical (isLexical_of_runSource h)
  have hlexical' := (derives_of_runSource h' he').isLexical (isLexical_of_runSource h')
  rw [equals_comparedRecord hlexical hlexical']

theorem derives_groupedLeaf {leaf : Expr} {opening t closing : Token}
    (hopening : opening.kind = .leftParen) (hleaf : t.leaf? = some leaf)
    (hclosing : closing.kind = .rightParen) :
    Grammar.Derives .expression [opening, t, closing] (.grouping leaf opening.line) := by
  have hinner : Grammar.Derives .expression [t] leaf := (Grammar.Derives.leaf hleaf).loosen (by decide)
  exact (Grammar.Derives.grouping hopening hclosing hinner).loosen (by decide)

theorem divides_groupedLeaf :
    Divides "(true)".toList [⟨.lexeme .punctuation, ['(']⟩, ⟨.lexeme .word, ['t', 'r', 'u', 'e']⟩,
        ⟨.lexeme .punctuation, [')']⟩] ∧
      Divides "\n(1)".toList [⟨.lexeme .newline, ['\n']⟩, ⟨.lexeme .punctuation, ['(']⟩,
        ⟨.lexeme .number, ['1']⟩, ⟨.lexeme .punctuation, [')']⟩] := by
  have hclose : Divides [')'] [⟨.lexeme .punctuation, [')']⟩] := .cons (.punctuation rfl) rfl .nil
  have hword : Segment.Cut ('t' :: (['r', 'u', 'e'] ++ [')']))
      ⟨.lexeme .word, ['t', 'r', 'u', 'e']⟩ :=
    .word rfl (List.all_eq_true.1 rfl) fun _ hd => Option.some.inj hd ▸ rfl
  have hnumber : Segment.Cut ('1' :: ([] ++ [')'])) ⟨.lexeme .number, ['1']⟩ :=
    .integer rfl (by simp) (fun _ hd => Option.some.inj hd ▸ rfl) (by simp)
  exact ⟨.cons (.punctuation rfl) rfl (.cons hword rfl hclose),
    .cons .newline rfl (.cons (.punctuation rfl) rfl (.cons hnumber rfl hclose))⟩

/-- A true constant and the number one, in parentheses on different lines. -/
theorem equals_comparedRecord_groupedLeaf :
    ∃ tokens result after tokens' result' after',
      runSource "(true)" {} = (.ok (tokens, result), after) ∧
      result.expr = some (.grouping (.literal (.bool true) 1) 1) ∧
      runSource "\n(1)" {} = (.ok (tokens', result'), after') ∧
      result'.expr = some (.grouping (.literal (.number .one) 2) 2) ∧
      (grouping (.literal (.bool true) 1) 1).comparedRecord.equals
        (grouping (.literal (.number .one) 2) 2).comparedRecord = true := by
  obtain ⟨hdivides, hdivides'⟩ := divides_groupedLeaf
  have htokens : Segment.tokens 1 [⟨.lexeme .newline, ['\n']⟩, ⟨.lexeme .punctuation, ['(']⟩,
      ⟨.lexeme .number, ['1']⟩, ⟨.lexeme .punctuation, [')']⟩] =
      [⟨.leftParen, "(", .nil, 2⟩, ⟨.number, "1", .number .one, 2⟩, ⟨.rightParen, ")", .nil, 2⟩] := by
    decide +kernel
  have hscan := scanSource_eq hdivides' {}
  rw [htokens] at hscan
  have hderives : Grammar.Derives .expression [⟨.leftParen, "(", .nil, 1⟩,
      ⟨.trueWord, "true", .nil, 1⟩, ⟨.rightParen, ")", .nil, 1⟩]
      (.grouping (.literal (.bool true) 1) 1) := derives_groupedLeaf rfl rfl rfl
  have hderives' : Grammar.Derives .expression [⟨.leftParen, "(", .nil, 2⟩,
      ⟨.number, "1", .number .one, 2⟩, ⟨.rightParen, ")", .nil, 2⟩]
      (.grouping (.literal (.number .one) 2) 2) := derives_groupedLeaf rfl rfl rfl
  obtain ⟨result, after, hrun, he⟩ :=
    exists_runSource_of_derives (scanSource_eq hdivides {}) rfl hderives (by decide)
  obtain ⟨result', after', hrun', he'⟩ :=
    exists_runSource_of_derives hscan rfl hderives' (by decide)
  have hequals : (grouping (.literal (.bool true) 1) 1).equals
      (grouping (.literal (.number .one) 2) 2) = true := by
    decide +kernel
  exact ⟨_, result, after, _, result', after', hrun, he, hrun', he',
    (equals_iff_equals_comparedRecord hrun he hrun' he').1 hequals⟩

end Expr

end LoxSyntax
