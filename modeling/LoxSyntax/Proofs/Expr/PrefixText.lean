import LoxSyntax.Expr.PrefixText
import LoxSyntax.Proofs.Number.Layout
import LoxSyntax.Proofs.Run.RoundTrip

/-! # Unique reading of the prefix text

A prefix text reads in one way only, as long as no constant is a text or an infinite number: a text
may look like any node, and an infinite number like a name (`prefixText_eq_iff`). Names and operands
are words without blanks and parentheses, so what follows a word tells its end. A unary node closes
where a binary one goes on, and `group` names a node only where no operator does. -/

namespace LoxSyntax

/-- Neither a text nor an infinite number, which may look like something else in a prefix text. -/
def Literal.isPlain : Literal → Bool
  | .nil | .bool _ | .number .nan => true
  | .number (.signed _ magnitude) => magnitude ≠ .infinity
  | .text _ => false

namespace Expr

/-- Every constant in the tree is plain. -/
def isPlain : Expr → Bool
  | literal value _ => value.isPlain
  | grouping inner _ => inner.isPlain
  | unary _ right => right.isPlain
  | binary left _ right => left.isPlain && right.isPlain
  | reference _ | unknown => true

/-- The characters that stand around names and operands. -/
def isSeparator (c : Char) : Bool := c = ' ' || c = '(' || c = ')'

/-- No character of the text stands around names and operands. -/
def Solid (text : List Char) : Prop := ∀ c ∈ text, isSeparator c = false

/-- What may stand behind a name or an operand. -/
def Follows (x : List Char) : Prop := ∀ c ∈ x.head?, c = ' ' ∨ c = ')'

/-- What stands behind the name of a node: its operands, the parenthesis, and what follows that. -/
def behind : List (List Char) → List Char → List Char
  | [], x => ')' :: x
  | operand :: operands, x => ' ' :: (operand ++ behind operands x)

/-- A name and operands in parentheses. -/
def node (name : String) (operands : List (List Char)) : List Char :=
  '(' :: (name.toList ++ behind operands [])

/-- The kinds of unary and binary operators. -/
def operatorKinds : List Kind := Rule.unaryOperators ++ Rule.expression.chained

/-- A token of a scan that is an operator. -/
structure IsOperator (t : Token) : Prop where
  isLexical : t.IsLexical
  kind_mem : t.kind ∈ operatorKinds

/-- The prefix text of a leaf: a reserved word or a name, or a finite number. -/
inductive Leaf : Expr → List Char → Prop
  | word {e text} : Lexeme .word text →
      Token.leaf? ⟨.ofWord (.ofList text), .ofList text, .nil, 0⟩ = some e.eraseLines → Leaf e text
  | number {magnitude line} : magnitude ≠ .infinity →
      Leaf (.literal (.number (.signed false magnitude)) line)
        (Number.decimalText magnitude.shortest)

/-- The prefix text of a tree of a scan. -/
inductive Prefixed : Expr → List Char → Prop
  | leaf {e text} : Leaf e text → Prefixed e text
  | grouping {inner line text} : Prefixed inner text →
      Prefixed (.grouping inner line) (node "group" [text])
  | unary {operator right text} : IsOperator operator → Prefixed right text →
      Prefixed (.unary operator right) (node operator.lexeme [text])
  | binary {left operator right leftText rightText} : IsOperator operator →
      Prefixed left leftText → Prefixed right rightText →
      Prefixed (.binary left operator right) (node operator.lexeme [leftText, rightText])

/-! ## Words -/

section Words

variable {w w' x x' text : List Char} {e e' : Expr} {operator : Token}

theorem isSeparator_eq_false {p : Char → Bool} {c : Char} (hc : p c = true)
    (h : p ' ' = false ∧ p '(' = false ∧ p ')' = false) : isSeparator c = false := by
  obtain ⟨hblank, hopening, hclosing⟩ := h
  simp [isSeparator, ne_of_apart hc hblank, ne_of_apart hc hopening, ne_of_apart hc hclosing]

theorem Solid.cancel (hw : Solid w) (hw' : Solid w') (hx : Follows x) (hx' : Follows x')
    (h : w ++ x = w' ++ x') : w = w' ∧ x = x' := by
  let inside : Char → Bool := fun c => !isSeparator c
  have hword : ∀ {w : List Char}, Solid w → ∀ c ∈ w, inside c = true := by
    intro w hw c hc
    simp [inside, hw c hc]
  have hstop : ∀ {x : List Char}, Follows x → ∀ c ∈ x.head?, inside c = false := by
    intro x hx c hc
    rcases hx c hc with rfl | rfl <;> rfl
  exact run_unique (hword hw) (hstop hx) (hword hw') (hstop hx') h

theorem follows_blank (x : List Char) : Follows (' ' :: x) := by
  rintro c ⟨⟩
  exact .inl rfl

theorem follows_close (x : List Char) : Follows (')' :: x) := by
  rintro c ⟨⟩
  exact .inr rfl

theorem solid_word (h : Lexeme .word text) : Solid text := by
  have hword : ∀ c ∈ text, Character.isWord c = true := by
    cases h with
    | word hc hcs => exact List.forall_mem_cons.2 ⟨by simp [Character.isWord, hc], hcs⟩
  exact fun c hc => isSeparator_eq_false (hword c hc) ⟨rfl, rfl, rfl⟩

theorem solid_decimalText (d : Decimal) : Solid (Number.decimalText d) := by
  intro c hc
  have hchar : (c.isDigit || decide (c ∈ Number.marks)) = true := by
    simpa using Number.mem_decimalText hc
  exact isSeparator_eq_false (p := fun c => c.isDigit || decide (c ∈ Number.marks)) hchar
    ⟨rfl, rfl, rfl⟩

theorem Leaf.solid (h : Leaf e text) : Solid text ∧ text ≠ [] := by
  cases h with
  | word h => exact ⟨solid_word h, h.ne_nil⟩
  | number =>
    obtain ⟨c, cs, hcs, -⟩ := Number.isDigit_head_decimalText _
    exact ⟨solid_decimalText _, hcs ▸ List.cons_ne_nil c cs⟩

theorem Leaf.ne_node (h : Leaf e text) (name : String) (operands : List (List Char)) :
    text ++ x ≠ node name operands ++ x' := by
  obtain ⟨hsolid, hne⟩ := h.solid
  intro heq
  obtain ⟨c, cs, rfl⟩ := List.exists_cons_of_ne_nil hne
  obtain ⟨rfl, -⟩ := List.cons.inj heq
  exact absurd (hsolid '(' List.mem_cons_self) (by decide)

/-- A numeral is no word, since it begins with a digit. -/
theorem not_lexeme_word_decimalText (d : Decimal) : ¬ Lexeme .word (Number.decimalText d) := by
  obtain ⟨c, cs, hcs, hdigit⟩ := Number.isDigit_head_decimalText d
  rw [hcs]
  rintro (_ | _)
  rename_i hletter _
  exact absurd hdigit (by simpa [Character.isDigit] using isDigit_eq_false_of_isLetter hletter)

/-- A leaf is known from its text, up to its line. -/
theorem Leaf.unique (h : Leaf e text) (h' : Leaf e' text) : e.eraseLines = e'.eraseLines := by
  cases h with
  | word hl hleaf =>
    cases h' with
    | word _ hleaf' => exact Option.some.inj (hleaf.symm.trans hleaf')
    | number => exact absurd hl (not_lexeme_word_decimalText _)
  | @number magnitude =>
    generalize htext : Number.decimalText magnitude.shortest = text at h'
    cases h' with
    | word hl => exact absurd (htext ▸ hl) (not_lexeme_word_decimalText _)
    | number => rw [Number.decimalText_shortest_injective htext, eraseLines, eraseLines]

/-- The lexeme of an operator has no letter in it, and nothing that stands around names. -/
theorem IsOperator.char (h : IsOperator operator) :
    ∀ c ∈ operator.lexeme.toList, Character.isLetter c = false ∧ isSeparator c = false := by
  obtain ⟨⟨s, -, hdenotes, hlexeme⟩, hkind⟩ := h
  rw [hlexeme, String.toList_ofList]
  have hpunctuation : ∀ entry ∈ Kind.punctuation, entry.2 ∈ operatorKinds →
      Character.isLetter entry.1 = false ∧ isSeparator entry.1 = false := by decide
  have hoperators : ∀ entry ∈ Kind.operators,
      Character.isLetter entry.1 = false ∧ isSeparator entry.1 = false := by decide
  have hkeywords : ∀ entry ∈ Kind.keywords, entry.2 ∉ operatorKinds := by decide
  generalize operator.kind = kind, operator.literal = literal at hdenotes hkind
  cases hdenotes with
  | punctuation h => simpa using hpunctuation _ h hkind
  | operator h => simpa using hoperators _ h
  | operatorEqual h =>
    have hequal : Character.isLetter '=' = false ∧ isSeparator '=' = false := by decide
    simpa using ⟨hoperators _ h, hequal⟩
  | slash =>
    have hslash : Character.isLetter '/' = false ∧ isSeparator '/' = false := by decide
    simpa using hslash
  | keyword h => exact absurd hkind (hkeywords _ h)
  | string | number | identifier => exact absurd hkind (by decide)

theorem IsOperator.solid (h : IsOperator operator) : Solid operator.lexeme.toList :=
  fun c hc => (h.char c hc).2

theorem IsOperator.lexeme_ne_group (h : IsOperator operator) : operator.lexeme ≠ "group" := by
  intro hgroup
  have hletter := h.char 'g' (by rw [hgroup]; decide)
  exact absurd hletter.1 (by decide)

end Words

/-! ## Nodes -/

section Nodes

variable {name name' : String} {operands operands' : List (List Char)} {x x' : List Char}
  {text text' : List Char} {e e' : Expr} {operator operator' : Token}

theorem solid_group : Solid "group".toList := by
  have hall : "group".toList.all (!isSeparator ·) = true := by decide
  intro c hc
  simpa using List.all_eq_true.1 hall c hc

theorem follows_behind (operands : List (List Char)) (x : List Char) : Follows (behind operands x) := by
  cases operands with
  | nil => exact follows_close x
  | cons => exact follows_blank _

theorem behind_append (operands : List (List Char)) (x : List Char) :
    behind operands [] ++ x = behind operands x := by
  induction operands with
  | nil => rfl
  | cons operand operands ih => rw [behind, behind, List.cons_append, List.append_assoc, ih]

/-- Two nodes have the same name, and what stands behind it is the same. -/
theorem node_cancel (hname : Solid name.toList) (hname' : Solid name'.toList)
    (h : node name operands ++ x = node name' operands' ++ x') :
    name = name' ∧ behind operands x = behind operands' x' := by
  rw [node, node, List.cons_append, List.cons_append, List.append_assoc, List.append_assoc,
    behind_append, behind_append] at h
  obtain ⟨htext, hrest⟩ :=
    hname.cancel hname' (follows_behind _ _) (follows_behind _ _) (List.cons.inj h).2
  exact ⟨String.toList_inj.1 htext, hrest⟩

theorem IsOperator.node_group_ne (h : IsOperator operator) :
    node "group" operands ++ x ≠ node operator.lexeme operands' ++ x' := by
  intro heq
  obtain ⟨hname, -⟩ := node_cancel solid_group h.solid heq
  exact h.lexeme_ne_group hname.symm

theorem IsOperator.node_cancel (h : IsOperator operator) (h' : IsOperator operator')
    (heq : node operator.lexeme operands ++ x = node operator'.lexeme operands' ++ x') :
    operator.eraseLine = operator'.eraseLine ∧ behind operands x = behind operands' x' := by
  obtain ⟨hname, hrest⟩ := Expr.node_cancel h.solid h'.solid heq
  exact ⟨h.isLexical.eraseLine_eq h'.isLexical hname, hrest⟩

/-- A prefix text with whatever follows it is read in one way. By induction on the tree: what follows
a name or an operand is in no word, so they can be split off from the left one by one. -/
theorem Prefixed.cancel (h : Prefixed e text) (h' : Prefixed e' text') (hx : Follows x)
    (hx' : Follows x') (heq : text ++ x = text' ++ x') : e.eraseLines = e'.eraseLines ∧ x = x' := by
  induction h generalizing e' text' x x' with
  | leaf hleaf =>
    cases h' with
    | leaf hleaf' =>
      obtain ⟨rfl, hrest⟩ := hleaf.solid.1.cancel hleaf'.solid.1 hx hx' heq
      exact ⟨hleaf.unique hleaf', hrest⟩
    | grouping | unary | binary => exact absurd heq (hleaf.ne_node _ _)
  | grouping _ ih =>
    cases h' with
    | leaf hleaf' => exact absurd heq.symm (hleaf'.ne_node _ _)
    | grouping hinner' =>
      obtain ⟨-, hrest⟩ := node_cancel solid_group solid_group heq
      obtain ⟨hinner, hclose⟩ := ih hinner' (follows_close _) (follows_close _) (List.cons.inj hrest).2
      exact ⟨by rw [eraseLines, eraseLines, hinner], (List.cons.inj hclose).2⟩
    | unary hoperator | binary hoperator => exact absurd heq hoperator.node_group_ne
  | unary hoperator _ ih =>
    cases h' with
    | leaf hleaf' => exact absurd heq.symm (hleaf'.ne_node _ _)
    | grouping => exact absurd heq.symm hoperator.node_group_ne
    | unary hoperator' hright' =>
      obtain ⟨hsame, hrest⟩ := hoperator.node_cancel hoperator' heq
      obtain ⟨hright, hclose⟩ := ih hright' (follows_close _) (follows_close _) (List.cons.inj hrest).2
      exact ⟨by rw [eraseLines, eraseLines, hright, hsame], (List.cons.inj hclose).2⟩
    | binary hoperator' hleft' =>
      -- The unary node closes where the binary one goes on.
      obtain ⟨-, hrest⟩ := hoperator.node_cancel hoperator' heq
      obtain ⟨-, hclose⟩ := ih hleft' (follows_close _) (follows_blank _) (List.cons.inj hrest).2
      cases hclose
  | binary hoperator _ _ ihl ihr =>
    cases h' with
    | leaf hleaf' => exact absurd heq.symm (hleaf'.ne_node _ _)
    | grouping => exact absurd heq.symm hoperator.node_group_ne
    | unary hoperator' hright' =>
      obtain ⟨-, hrest⟩ := hoperator.node_cancel hoperator' heq
      obtain ⟨-, hclose⟩ := ihl hright' (follows_blank _) (follows_close _) (List.cons.inj hrest).2
      cases hclose
    | binary hoperator' hleft' hright' =>
      obtain ⟨hsame, hrest⟩ := hoperator.node_cancel hoperator' heq
      obtain ⟨hleft, hmiddle⟩ := ihl hleft' (follows_blank _) (follows_blank _) (List.cons.inj hrest).2
      obtain ⟨hright, hclose⟩ :=
        ihr hright' (follows_close _) (follows_close _) (List.cons.inj hmiddle).2
      exact ⟨by rw [eraseLines, eraseLines, hleft, hright, hsame], (List.cons.inj hclose).2⟩

end Nodes

/-! ## The prefix text of a tree of a scan -/

section Scanned

variable {t : Token} {e e' : Expr} {rule : Rule} {ts : List Token}

theorem mem_operatorKinds_of_mem_operators {kind : Kind} (h : kind ∈ rule.operators) :
    kind ∈ operatorKinds :=
  List.mem_append_right _ (Rule.mem_expression_chained_of_mem_operators h)

theorem leaf?_eraseLine (h : t.leaf? = some e) : t.eraseLine.leaf? = some e.eraseLines := by
  obtain ⟨kind, lexeme, literal, line⟩ := t
  cases kind <;> cases h <;> rfl

/-- A reserved word that is a constant is the prefix text of the constant. -/
theorem prefixText_keyword {word : String} {kind : Kind} {line : Int}
    (hmem : (word, kind) ∈ Kind.keywords) (h : Token.leaf? ⟨kind, word, .nil, line⟩ = some e) :
    e.prefixText = .ok word := by
  have hfalse : ∀ entry ∈ Kind.keywords, entry.2 = .falseWord → entry.1 = "false" := by decide
  have htrue : ∀ entry ∈ Kind.keywords, entry.2 = .trueWord → entry.1 = "true" := by decide
  have hnil : ∀ entry ∈ Kind.keywords, entry.2 = .nilWord → entry.1 = "nil" := by decide
  have hother : ∀ entry ∈ Kind.keywords, entry.2 ∉ [.number, .string, .identifier] := by decide
  cases kind <;> cases h
  case falseWord =>
    obtain rfl : word = "false" := hfalse _ hmem rfl
    rfl
  case trueWord =>
    obtain rfl : word = "true" := htrue _ hmem rfl
    rfl
  case nilWord =>
    obtain rfl : word = "nil" := hnil _ hmem rfl
    rfl
  all_goals exact absurd (hother _ hmem) (by simp)

theorem text_signed {magnitude : Magnitude} (h : magnitude ≠ .infinity) :
    (Number.signed false magnitude).text = .ofList (Number.decimalText magnitude.shortest) := by
  rw [← String.toList_inj, Number.text, Number.toList_textWith_signed, Number.magnitudeText, if_neg h,
    String.toList_ofList, if_neg Bool.false_ne_true, List.nil_append]

theorem exists_leaf (ht : t.IsLexical) (h : t.leaf? = some e) (hplain : e.isPlain) :
    ∃ text, Leaf e text ∧ e.prefixText = .ok (.ofList text) := by
  obtain ⟨⟨sort, text⟩, ⟨hl, -⟩, hdenotes, hlexeme⟩ := ht
  have hleaf := leaf?_eraseLine h
  have hkind := Token.kind_mem_leaves h
  obtain ⟨kind, lexeme, literal, line⟩ := t
  obtain rfl : lexeme = .ofList text := hlexeme
  have hpunctuation : ∀ entry ∈ Kind.punctuation, entry.2 ∉ Kind.leaves := by decide
  have hoperators : ∀ entry ∈ Kind.operators,
      entry.2.1 ∉ Kind.leaves ∧ entry.2.2 ∉ Kind.leaves := by decide
  cases hdenotes with
  | punctuation hmem => exact absurd hkind (hpunctuation _ hmem)
  | operator hmem => exact absurd hkind (hoperators _ hmem).1
  | operatorEqual hmem => exact absurd hkind (hoperators _ hmem).2
  | slash =>
    have hslash : Kind.slash ∉ Kind.leaves := by decide
    exact absurd hkind hslash
  | string =>
    cases h
    cases hplain
  | number hvalue =>
    cases hl.ofText?_eq.symm.trans hvalue
    cases h
    have hfinite : (Decimal.ofLexeme text).nearest ≠ .infinity := of_decide_eq_true hplain
    exact ⟨_, .number hfinite, congrArg Except.ok (text_signed hfinite)⟩
  | keyword hmem =>
    have hword := Kind.ofWord_eq_iff.2 (.inl hmem)
    exact ⟨text, .word hl (hword ▸ hleaf), prefixText_keyword hmem h⟩
  | identifier hnone =>
    have hword := Kind.ofWord_eq_iff.2 (.inr ⟨rfl, hnone⟩)
    refine ⟨text, .word hl (hword ▸ hleaf), ?_⟩
    cases h
    rfl

theorem parenthesizeOne_ofList (name : String) (text : List Char) :
    parenthesizeOne name (.ofList text) = .ofList (node name [text]) := by
  simp [← String.toList_inj, parenthesizeOne, node, behind]

theorem parenthesizeTwo_ofList (name : String) (left right : List Char) :
    parenthesizeTwo name (.ofList left) (.ofList right) = .ofList (node name [left, right]) := by
  simp [← String.toList_inj, parenthesizeTwo, node, behind]

/-- The prefix text of a tree that tokens of a scan derive. -/
theorem exists_prefixed (h : Grammar.Derives rule ts e) (hts : ∀ t ∈ ts, t.IsLexical)
    (hplain : e.isPlain) : ∃ text, Prefixed e text ∧ e.prefixText = .ok (.ofList text) := by
  induction h with
  | descend _ _ ih => exact ih hts hplain
  | binary _ hop _ _ ihl ihr =>
    obtain ⟨hls, hrest⟩ := List.forall_mem_append.1 hts
    obtain ⟨hoperator, hrs⟩ := List.forall_mem_cons.1 hrest
    obtain ⟨hleft, hright⟩ := Bool.and_eq_true_iff.1 hplain
    obtain ⟨ltext, hl, hltext⟩ := ihl hls hleft
    obtain ⟨rtext, hr, hrtext⟩ := ihr hrs hright
    refine ⟨_, .binary ⟨hoperator, mem_operatorKinds_of_mem_operators hop⟩ hl hr, ?_⟩
    rw [prefixText, hltext, hrtext]
    exact congrArg Except.ok (parenthesizeTwo_ofList ..)
  | unary hop _ ih =>
    obtain ⟨hoperator, hright⟩ := List.forall_mem_cons.1 hts
    obtain ⟨text, hr, htext⟩ := ih hright hplain
    refine ⟨_, .unary ⟨hoperator, List.mem_append_left _ hop⟩ hr, ?_⟩
    rw [prefixText, htext]
    exact congrArg Except.ok (parenthesizeOne_ofList ..)
  | leaf h =>
    obtain ⟨text, hleaf, htext⟩ := exists_leaf (hts _ (List.mem_singleton_self _)) h hplain
    exact ⟨text, .leaf hleaf, htext⟩
  | grouping _ _ _ ih =>
    obtain ⟨hinner, -⟩ := List.forall_mem_append.1 (List.forall_mem_cons.1 hts).2
    obtain ⟨text, hi, htext⟩ := ih hinner hplain
    refine ⟨_, .grouping hi, ?_⟩
    rw [prefixText, htext]
    exact congrArg Except.ok (parenthesizeOne_ofList ..)

theorem prefixText_eraseLines (e : Expr) : e.eraseLines.prefixText = e.prefixText := by
  induction e with
  | grouping _ _ ih | unary _ _ ih => simp only [eraseLines, prefixText, Token.eraseLine, ih]
  | binary _ _ _ ihl ihr => simp only [eraseLines, prefixText, Token.eraseLine, ihl, ihr]
  | literal | reference | unknown => rfl

end Scanned

/-- Two runs that come to trees without texts and infinite numbers have the same prefix text exactly if
the trees differ in lines only. -/
theorem prefixText_eq_iff {source source' : String} {reporter reporter' after after' : Reporter}
    {tokens tokens' : List Token} {result result' : ParseResult} {e e' : Expr}
    (h : runSource source reporter = (.ok (tokens, result), after)) (he : result.expr = some e)
    (hplain : e.isPlain)
    (h' : runSource source' reporter' = (.ok (tokens', result'), after'))
    (he' : result'.expr = some e') (hplain' : e'.isPlain) :
    e.prefixText = e'.prefixText ↔ e.eraseLines = e'.eraseLines := by
  constructor
  · intro heq
    obtain ⟨text, hprefixed, htext⟩ :=
      exists_prefixed (derives_of_runSource h he) (isLexical_of_runSource h) hplain
    obtain ⟨text', hprefixed', htext'⟩ :=
      exists_prefixed (derives_of_runSource h' he') (isLexical_of_runSource h') hplain'
    rw [htext, htext'] at heq
    have hsame : text = text' := String.ofList_injective (Except.ok.inj heq)
    have hnil : Follows [] := fun c hc => nomatch hc
    exact (hprefixed.cancel hprefixed' hnil hnil (by rw [hsame])).1
  · intro heq
    rw [← prefixText_eraseLines e, ← prefixText_eraseLines e', heq]

/-- A name that nodes have too, on the line. -/
def groupName (line : Int) : Token := ⟨.identifier, "group", .nil, line⟩

/-- The negation of the name, which is on the line. -/
def negatedGroup (line : Int) : Expr := .unary ⟨.minus, "-", .nil, 1⟩ (.reference (groupName line))

theorem derives_negatedGroup (line : Int) :
    Grammar.Derives .expression [⟨.minus, "-", .nil, 1⟩, groupName line] (negatedGroup line) := by
  have hname : Grammar.Derives .unary [groupName line] (.reference (groupName line)) :=
    .descend rfl (.leaf rfl)
  have hunary : Grammar.Derives .unary [⟨.minus, "-", .nil, 1⟩, groupName line] (negatedGroup line) :=
    .unary (by decide) hname
  exact .descend rfl (.descend rfl (.descend rfl (.descend rfl (.descend rfl hunary))))

theorem divides_negatedGroup :
    Divides "-group".toList
        [⟨.lexeme .punctuation, ['-']⟩, ⟨.lexeme .word, ['g', 'r', 'o', 'u', 'p']⟩] ∧
      Divides "-\ngroup".toList [⟨.lexeme .punctuation, ['-']⟩, ⟨.lexeme .newline, ['\n']⟩,
        ⟨.lexeme .word, ['g', 'r', 'o', 'u', 'p']⟩] := by
  have hword : Segment.Cut ('g' :: (['r', 'o', 'u', 'p'] ++ []))
      ⟨.lexeme .word, ['g', 'r', 'o', 'u', 'p']⟩ :=
    .word rfl (List.all_eq_true.1 rfl) (by simp)
  have hname : Divides ['g', 'r', 'o', 'u', 'p'] [⟨.lexeme .word, ['g', 'r', 'o', 'u', 'p']⟩] :=
    .cons hword rfl .nil
  exact ⟨.cons (.punctuation rfl) rfl hname, .cons (.punctuation rfl) rfl (.cons .newline rfl hname)⟩

theorem prefixText_eq_negatedGroup :
    ∃ tokens result after tokens' result' after',
      runSource "-group" {} = (.ok (tokens, result), after) ∧
      result.expr = some (negatedGroup 1) ∧
      runSource "-\ngroup" {} = (.ok (tokens', result'), after') ∧
      result'.expr = some (negatedGroup 2) ∧
      (negatedGroup 1).prefixText = .ok "(- group)" ∧
      (negatedGroup 1).prefixText = (negatedGroup 2).prefixText ∧
      (negatedGroup 1).eraseLines = (negatedGroup 2).eraseLines := by
  obtain ⟨hdivides, hdivides'⟩ := divides_negatedGroup
  obtain ⟨result, after, hrun, he⟩ := exists_runSource_of_derives (scanSource_eq hdivides {}) rfl
    (derives_negatedGroup 1) (by decide)
  obtain ⟨result', after', hrun', he'⟩ := exists_runSource_of_derives (scanSource_eq hdivides' {}) rfl
    (derives_negatedGroup 2) (by decide)
  have htext : (negatedGroup 1).prefixText = (negatedGroup 2).prefixText := by decide
  exact ⟨_, result, after, _, result', after', hrun, he, hrun', he', by decide, htext,
    (prefixText_eq_iff hrun he rfl hrun' he' rfl).1 htext⟩

end Expr

end LoxSyntax
