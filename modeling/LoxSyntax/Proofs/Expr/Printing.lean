import LoxSyntax.Proofs.Expr.Equality
import LoxSyntax.Proofs.Expr.PrefixText
import LoxSyntax.Proofs.Expr.Record

/-! # Equal trees and their texts

Equality of trees counts the truth values as the numbers one and zero, which are written otherwise.
Two equal trees of a scan have the same prefix text exactly if their truth values stand in the same
places, and the same holds for their records (`Expr.prefixText_eq_iff_truths_eq`). -/

namespace LoxSyntax

namespace Literal

def isTruth : Literal → Bool
  | .bool _ => true
  | .nil | .number _ | .text _ => false

/-- No number with a minus sign. -/
def isUnsigned : Literal → Bool
  | .number (.signed negative _) => !negative
  | .nil | .bool _ | .number .nan | .text _ => true

variable {a b : Literal} {x x' : List Char}

theorem equals_bool {v w : Bool} (h : (bool v).equals (bool w) = true) : v = w := by
  have happart : Number.one.equals .zero = false ∧ Number.zero.equals .one = false := by
    decide +kernel
  cases v <;> cases w
  · rfl
  · exact absurd h (by simp [equals, numeric?, happart.2])
  · exact absurd h (by simp [equals, numeric?, happart.1])
  · rfl

/-- Equal constants differ only where one of them is a truth value. -/
theorem eq_of_equals (ha : a.isUnsigned) (hb : b.isUnsigned) (h : a.equals b = true)
    (htruth : a.isTruth = b.isTruth) : a = b := by
  cases a with
  | bool v =>
    cases b with
    | bool w => rw [equals_bool h]
    | nil | number | text => cases htruth
  | number m =>
    cases b with
    | number n =>
      cases m with
      | nan => cases h
      | signed negative m =>
        cases n with
        | nan => cases h
        | signed negative' n =>
          obtain rfl : negative = false := by simpa [isUnsigned] using ha
          obtain rfl : negative' = false := by simpa [isUnsigned] using hb
          have hsame : m = n := by simpa [equals, numeric?, Number.equals] using h
          rw [hsame]
    | bool => cases htruth
    | nil | text => cases h
  | nil =>
    cases b with
    | nil => rfl
    | bool => cases htruth
    | number | text => cases h
  | text value =>
    cases b with
    | text value' => simpa [equals, numeric?] using h
    | bool => cases htruth
    | nil | number => cases h

/-- A truth value begins with a letter that no number begins with. -/
theorem exprText_bool_append_ne (value : Bool) (n : Number) :
    (bool value).exprText.toList ++ x ≠ (number n).exprText.toList ++ x' := by
  obtain ⟨c, cs, hcs, hc⟩ := n.head_text
  have happart : ['t', 'f'].all (!Number.isTextHead ·) = true := rfl
  have hbegins : ∃ d ∈ ['t', 'f'], ∃ ds, (bool value).exprText.toList = d :: ds := by
    cases value with
    | false => exact ⟨'f', by decide, _, rfl⟩
    | true => exact ⟨'t', by decide, _, rfl⟩
  obtain ⟨d, hd, ds, hds⟩ := hbegins
  intro h
  have hnumber : (number n).exprText.toList = c :: cs := hcs
  rw [hds, hnumber] at h
  obtain ⟨rfl, -⟩ := List.cons.inj h
  simpa [hc] using List.all_eq_true.1 happart d hd

/-- The texts of equal constants tell whether one of them alone is a truth value. -/
theorem isTruth_eq_of_exprText (h : a.equals b = true)
    (htext : a.exprText.toList ++ x = b.exprText.toList ++ x') : a.isTruth = b.isTruth := by
  cases a with
  | bool v =>
    cases b with
    | bool => rfl
    | number n => exact absurd htext (exprText_bool_append_ne v n)
    | nil | text => cases h
  | number m =>
    cases b with
    | bool v => exact absurd htext.symm (exprText_bool_append_ne v m)
    | number => rfl
    | nil | text => rfl
  | nil | text =>
    cases b with
    | bool => cases h
    | nil | number | text => rfl

end Literal

/-- A token of a scan has no value with a minus sign. -/
theorem Token.IsLexical.isUnsigned_literal {t : Token} (h : t.IsLexical) : t.literal.isUnsigned := by
  obtain ⟨⟨sort, text⟩, ⟨hl, -⟩, hdenotes, -⟩ := h
  generalize t.kind = kind, t.literal = literal at hdenotes
  cases hdenotes with
  | number hvalue =>
    cases hl.ofText?_eq.symm.trans hvalue
    rfl
  | _ => rfl

namespace Expr

/-- Which constants are truth values, in source order. -/
def truths : Expr → List Bool
  | literal value _ => [value.isTruth]
  | grouping inner _ => inner.truths
  | unary _ right => right.truths
  | binary left _ right => left.truths ++ right.truths
  | reference _ | unknown => []

/-- The prefix text of a tree of a scan, whatever its constants are. -/
inductive Printed : Expr → List Char → Prop
  | literal {value line} : value.isUnsigned → Printed (.literal value line) value.exprText.toList
  | grouping {inner line text} : Printed inner text →
      Printed (.grouping inner line) (node "group" [text])
  | unary {operator right text} : operator.IsLexical → Printed right text →
      Printed (.unary operator right) (node operator.lexeme [text])
  | binary {left operator right leftText rightText} : operator.IsLexical →
      Printed left leftText → Printed right rightText →
      Printed (.binary left operator right) (node operator.lexeme [leftText, rightText])
  | reference {name} : name.IsLexical → Printed (.reference name) name.lexeme.toList

/-- What the places of the truth values settle for two equal trees with their texts. -/
structure Agree (e : Expr) (text : List Char) (e' : Expr) (text' : List Char) : Prop where
  length_eq : e.truths.length = e'.truths.length
  text_eq : e.truths = e'.truths → text = text'
  record_eq : e.truths = e'.truths → e.comparedRecord = e'.comparedRecord
  truths_of_text : ∀ {x x'}, text ++ x = text' ++ x' → e.truths = e'.truths ∧ x = x'
  truths_of_record : e.comparedRecord = e'.comparedRecord → e.truths = e'.truths

variable {e e' inner inner' left left' right right' : Expr} {operator : Token}
  {text text' leftText leftText' rightText rightText' x x' : List Char} {line line' : Int}
  {a b : Literal} {rule : Rule} {ts : List Token}

/-! ## Nodes of equal trees -/

theorem behind_eq_of_node_append {name : String} {operands operands' : List (List Char)}
    (h : node name operands ++ x = node name operands' ++ x') :
    behind operands x = behind operands' x' := by
  rw [node, node, List.cons_append, List.cons_append, List.append_assoc, List.append_assoc,
    behind_append, behind_append] at h
  exact List.append_cancel_left (List.cons.inj h).2

theorem Agree.refl (e : Expr) (text : List Char) : Agree e text e text where
  length_eq := rfl
  text_eq _ := rfl
  record_eq _ := rfl
  truths_of_text h := ⟨rfl, List.append_cancel_left h⟩
  truths_of_record _ := rfl

theorem Agree.literal (ha : a.isUnsigned) (hb : b.isUnsigned) (h : a.equals b = true) :
    Agree (.literal a line) a.exprText.toList (.literal b line') b.exprText.toList := by
  have hsame : a.isTruth = b.isTruth → a = b := Literal.eq_of_equals ha hb h
  refine ⟨rfl, fun ht => ?_, fun ht => ?_, fun htext => ?_, fun hrecord => ?_⟩
  · rw [hsame (List.cons.inj ht).1]
  · rw [comparedRecord_literal, comparedRecord_literal, hsame (List.cons.inj ht).1]
  · have htruth : a.isTruth = b.isTruth := Literal.isTruth_eq_of_exprText h htext
    obtain rfl := hsame htruth
    exact ⟨rfl, List.append_cancel_left htext⟩
  · have hvalue : a.record = b.record := by simpa using hrecord
    rw [truths, truths, Literal.record_injective hvalue]

theorem Agree.of_node_append {name : String} (h : Agree inner text inner' text')
    (heq : node name [text] ++ x = node name [text'] ++ x') :
    inner.truths = inner'.truths ∧ x = x' := by
  have hrest := behind_eq_of_node_append heq
  obtain ⟨ht, hclose⟩ := h.truths_of_text (List.cons.inj hrest).2
  exact ⟨ht, (List.cons.inj hclose).2⟩

theorem Agree.grouping (h : Agree inner text inner' text') :
    Agree (.grouping inner line) (node "group" [text]) (.grouping inner' line')
      (node "group" [text']) where
  length_eq := h.length_eq
  text_eq ht := by rw [h.text_eq ht]
  record_eq ht := by rw [comparedRecord_grouping, comparedRecord_grouping, h.record_eq ht]
  truths_of_text heq := h.of_node_append heq
  truths_of_record hrecord := h.truths_of_record (by simpa using hrecord)

theorem Agree.unary (h : Agree right text right' text') :
    Agree (.unary operator right) (node operator.lexeme [text]) (.unary operator right')
      (node operator.lexeme [text']) where
  length_eq := h.length_eq
  text_eq ht := by rw [h.text_eq ht]
  record_eq ht := by rw [comparedRecord_unary, comparedRecord_unary, h.record_eq ht]
  truths_of_text heq := h.of_node_append heq
  truths_of_record hrecord := h.truths_of_record (by simpa using hrecord)

theorem Agree.binary (hl : Agree left leftText left' leftText')
    (hr : Agree right rightText right' rightText') :
    Agree (.binary left operator right) (node operator.lexeme [leftText, rightText])
      (.binary left' operator right') (node operator.lexeme [leftText', rightText']) := by
  have hsplit : left.truths ++ right.truths = left'.truths ++ right'.truths →
      left.truths = left'.truths ∧ right.truths = right'.truths := fun ht =>
    List.append_inj ht hl.length_eq
  refine ⟨?_, fun ht => ?_, fun ht => ?_, fun heq => ?_, fun hrecord => ?_⟩
  · rw [truths, truths, List.length_append, List.length_append, hl.length_eq, hr.length_eq]
  · obtain ⟨hleft, hright⟩ := hsplit ht
    rw [hl.text_eq hleft, hr.text_eq hright]
  · obtain ⟨hleft, hright⟩ := hsplit ht
    rw [comparedRecord_binary, comparedRecord_binary, hl.record_eq hleft, hr.record_eq hright]
  · have hrest := behind_eq_of_node_append heq
    obtain ⟨hleft, hmiddle⟩ := hl.truths_of_text (List.cons.inj hrest).2
    obtain ⟨hright, hclose⟩ := hr.truths_of_text (List.cons.inj hmiddle).2
    exact ⟨by rw [truths, truths, hleft, hright], (List.cons.inj hclose).2⟩
  · obtain ⟨hleft, hright⟩ : left.comparedRecord = left'.comparedRecord ∧
        right.comparedRecord = right'.comparedRecord := by simpa using hrecord
    rw [truths, truths, hl.truths_of_record hleft, hr.truths_of_record hright]

/-- Equal tokens of a scan are the same. -/
theorem eq_of_equals_of_isLexical {t t' : Token} (h : t.IsLexical) (h' : t'.IsLexical)
    (heq : t.equals t' = true) : t = t' := by
  rw [h.equals_eq h', Bool.and_eq_true, decide_eq_true_iff, decide_eq_true_iff] at heq
  exact h.ext h' heq.2 heq.1

/-- By induction on one of two equal trees: the other one has the same node at its root. -/
theorem Printed.agree (h : Printed e text) (h' : Printed e' text') (heq : e.equals e' = true) :
    Agree e text e' text' := by
  induction h generalizing e' text' with
  | literal ha =>
    cases h' with
    | literal hb => exact .literal ha hb heq
    | grouping | unary | binary | reference => cases heq
  | grouping _ ih =>
    cases h' with
    | grouping hinner' => exact .grouping (ih hinner' heq)
    | literal | unary | binary | reference => cases heq
  | unary hoperator _ ih =>
    cases h' with
    | unary hoperator' hright' =>
      obtain ⟨hsame, hright⟩ := Bool.and_eq_true_iff.1 heq
      obtain rfl := eq_of_equals_of_isLexical hoperator hoperator' hsame
      exact .unary (ih hright' hright)
    | literal | grouping | binary | reference => cases heq
  | binary hoperator _ _ ihl ihr =>
    cases h' with
    | binary hoperator' hleft' hright' =>
      obtain ⟨hfront, hright⟩ := Bool.and_eq_true_iff.1 heq
      obtain ⟨hleft, hsame⟩ := Bool.and_eq_true_iff.1 hfront
      obtain rfl := eq_of_equals_of_isLexical hoperator hoperator' hsame
      exact .binary (ihl hleft' hleft) (ihr hright' hright)
    | literal | grouping | unary | reference => cases heq
  | reference hname =>
    cases h' with
    | reference hname' =>
      obtain rfl := eq_of_equals_of_isLexical hname hname' heq
      exact .refl _ _
    | literal | grouping | unary | binary => cases heq

/-! ## Trees of runs -/

theorem printed_of_leaf? {t : Token} (ht : t.IsLexical) (h : t.leaf? = some e) :
    ∃ text, Printed e text ∧ e.prefixText = .ok (.ofList text) := by
  simp only [Token.leaf?] at h
  split at h <;> cases h
  · exact ⟨_, .literal rfl, rfl⟩
  · exact ⟨_, .literal rfl, rfl⟩
  · exact ⟨_, .literal rfl, rfl⟩
  · exact ⟨_, .literal ht.isUnsigned_literal, by rw [prefixText, String.ofList_toList]⟩
  · exact ⟨_, .literal ht.isUnsigned_literal, by rw [prefixText, String.ofList_toList]⟩
  · exact ⟨_, .reference ht, by rw [prefixText, String.ofList_toList]⟩

theorem exists_printed (h : Grammar.Derives rule ts e) (hts : ∀ t ∈ ts, t.IsLexical) :
    ∃ text, Printed e text ∧ e.prefixText = .ok (.ofList text) := by
  induction h with
  | descend _ _ ih => exact ih hts
  | binary _ _ _ _ ihl ihr =>
    obtain ⟨hls, hrest⟩ := List.forall_mem_append.1 hts
    obtain ⟨hoperator, hrs⟩ := List.forall_mem_cons.1 hrest
    obtain ⟨leftText, hl, hltext⟩ := ihl hls
    obtain ⟨rightText, hr, hrtext⟩ := ihr hrs
    refine ⟨_, .binary hoperator hl hr, ?_⟩
    rw [prefixText, hltext, hrtext]
    exact congrArg Except.ok (parenthesizeTwo_ofList ..)
  | unary _ _ ih =>
    obtain ⟨hoperator, hright⟩ := List.forall_mem_cons.1 hts
    obtain ⟨text, hr, htext⟩ := ih hright
    refine ⟨_, .unary hoperator hr, ?_⟩
    rw [prefixText, htext]
    exact congrArg Except.ok (parenthesizeOne_ofList ..)
  | leaf h => exact printed_of_leaf? (hts _ (List.mem_singleton_self _)) h
  | grouping _ _ _ ih =>
    obtain ⟨hinner, -⟩ := List.forall_mem_append.1 (List.forall_mem_cons.1 hts).2
    obtain ⟨text, hi, htext⟩ := ih hinner
    refine ⟨_, .grouping hi, ?_⟩
    rw [prefixText, htext]
    exact congrArg Except.ok (parenthesizeOne_ofList ..)

/-- Equal trees of two runs have the same prefix text exactly if their truth values stand in the same
places, and so have they the same record, apart from the lines of literals and groupings. -/
theorem prefixText_eq_iff_truths_eq {source source' : String}
    {reporter reporter' after after' : Reporter} {tokens tokens' : List Token}
    {result result' : ParseResult}
    (h : runSource source reporter = (.ok (tokens, result), after)) (he : result.expr = some e)
    (h' : runSource source' reporter' = (.ok (tokens', result'), after'))
    (he' : result'.expr = some e') (heq : e.equals e' = true) :
    (e.prefixText = e'.prefixText ↔ e.truths = e'.truths) ∧
      (e.comparedRecord = e'.comparedRecord ↔ e.truths = e'.truths) := by
  obtain ⟨text, hprinted, htext⟩ :=
    exists_printed (derives_of_runSource h he) (isLexical_of_runSource h)
  obtain ⟨text', hprinted', htext'⟩ :=
    exists_printed (derives_of_runSource h' he') (isLexical_of_runSource h')
  have hagree : Agree e text e' text' := hprinted.agree hprinted' heq
  constructor
  · rw [htext, htext']
    constructor
    · intro hsame
      have hlist : text = text' := String.ofList_injective (Except.ok.inj hsame)
      exact (hagree.truths_of_text (congrArg (· ++ []) hlist)).1
    · intro htruths
      rw [hagree.text_eq htruths]
  · exact ⟨hagree.truths_of_record, hagree.record_eq⟩

/-- A true constant and a number in parentheses, which begin on the line. -/
def trueIsOne (line : Int) : Expr :=
  .binary (.literal (.bool true) 1) ⟨.equalEqual, "==", .nil, 1⟩
    (.grouping (.literal (.number .one) line) 1)

theorem prefixText_eq_iff_truths_eq_trueIsOne :
    ∃ tokens result after tokens' result' after',
      runSource "true == (1)" {} = (.ok (tokens, result), after) ∧
      result.expr = some (trueIsOne 1) ∧
      runSource "true == (\n1)" {} = (.ok (tokens', result'), after') ∧
      result'.expr = some (trueIsOne 2) ∧ (trueIsOne 1).equals (trueIsOne 2) = true ∧
      (trueIsOne 1).truths = [true, false] ∧
      (trueIsOne 1).prefixText = (trueIsOne 2).prefixText ∧
      (trueIsOne 1).comparedRecord = (trueIsOne 2).comparedRecord := by
  have hrun : (runSource "true == (1)" {}).1.toOption.bind (·.2.expr) = some (trueIsOne 1) := by
    decide +kernel
  have hrun' : (runSource "true == (\n1)" {}).1.toOption.bind (·.2.expr) = some (trueIsOne 2) := by
    decide +kernel
  obtain ⟨tokens, result, after, hsource, he⟩ := exists_runSource_of_expr_eq hrun
  obtain ⟨tokens', result', after', hsource', he'⟩ := exists_runSource_of_expr_eq hrun'
  have heq : (trueIsOne 1).equals (trueIsOne 2) = true := by decide +kernel
  have hiff := prefixText_eq_iff_truths_eq hsource he hsource' he' heq
  exact ⟨tokens, result, after, tokens', result', after', hsource, he, hsource', he', heq, rfl,
    hiff.1.2 rfl, hiff.2.2 rfl⟩

/-- The number one and a true constant are equal trees with different texts and records. -/
theorem exists_equals_of_prefixText_ne :
    ∃ tokens result after tokens' result' after',
      runSource "1" {} = (.ok (tokens, result), after) ∧
      result.expr = some (.literal (.number .one) 1) ∧
      runSource "true" {} = (.ok (tokens', result'), after') ∧
      result'.expr = some (.literal (.bool true) 1) ∧
      (literal (.number .one) 1).equals (.literal (.bool true) 1) = true ∧
      (literal (.number .one) 1).prefixText = .ok "1.0" ∧
      (literal (.bool true) 1).prefixText = .ok "true" ∧
      (literal (.number .one) 1).comparedRecord ≠ (literal (.bool true) 1).comparedRecord := by
  have hrun : (runSource "1" {}).1.toOption.bind (·.2.expr) =
      some (.literal (.number .one) 1) := by decide +kernel
  have hrun' : (runSource "true" {}).1.toOption.bind (·.2.expr) =
      some (.literal (.bool true) 1) := by decide +kernel
  obtain ⟨tokens, result, after, hsource, he⟩ := exists_runSource_of_expr_eq hrun
  obtain ⟨tokens', result', after', hsource', he'⟩ := exists_runSource_of_expr_eq hrun'
  have heq : (literal (.number .one) 1).equals (.literal (.bool true) 1) = true := by decide +kernel
  have htext : (literal (.number .one) 1).prefixText = .ok "1.0" := by decide +kernel
  have hrecord : (literal (.number .one) 1).comparedRecord ≠
      (literal (.bool true) 1).comparedRecord := by simp [Literal.record]
  exact ⟨tokens, result, after, tokens', result', after', hsource, he, hsource', he', heq, htext, rfl,
    hrecord⟩

end Expr

end LoxSyntax
