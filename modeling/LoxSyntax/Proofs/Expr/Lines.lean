import LoxSyntax.Proofs.Json.Equality
import LoxSyntax.Proofs.Run.RoundTrip
import LoxSyntax.Proofs.Scan.LineNumbers

/-! # Lines of a tree

`Expr.lines` lists the lines of the nodes of a tree as the nodes stand in the source, and
`Json.Value.lines` those that a record gives. A tree takes one line from each token apart from
closing parentheses (`Grammar.Derives.lines_eq`), so the lines of a tree of a run are those of the
places at which its tokens end, and they go up (`runSource_lines`). -/

namespace LoxSyntax

/-! ## Lines in source order -/

/-- The lines of the nodes in source order. An operator with two operands stands between them, and
every other node begins before its parts. -/
def Expr.lines : Expr → List Int
  | literal value line => [(literal value line).line]
  | grouping inner line => (grouping inner line).line :: inner.lines
  | unary operator right => (unary operator right).line :: right.lines
  | binary left operator right => left.lines ++ (binary left operator right).line :: right.lines
  | reference name => [(reference name).line]
  | unknown => [unknown.line]

namespace Json

/-- The line that an object gives for itself. -/
def Entries.ownLine (entries : Entries) : List Int :=
  match entries.lookup "line" with
  | some (.integer line) => [line]
  | _ => []

mutual

/-- The lines of a record and of the records in it in source order: what is under `left` stands
before the record itself, and its other parts stand behind it. -/
def Value.lines : Value → List Int
  | .object entries =>
    entries.linesUnder ["left"] ++ entries.ownLine ++ entries.linesUnder ["expression", "right"]
  | _ => []

/-- The lines of the entries with one of the names. -/
def Entries.linesUnder (names : List String) : Entries → List Int
  | .empty => []
  | .entry name value rest =>
    (if name ∈ names then value.lines else []) ++ rest.linesUnder names

end

end Json

/-- A record gives the lines of the tree. -/
theorem Expr.lines_record (e : Expr) : e.record.lines = e.lines := by
  induction e with
  | literal | reference | unknown => rfl
  | grouping inner line ih | unary operator inner ih =>
    simp [record, recordWith, lines, Json.Value.lines, Json.Entries.linesUnder,
      Json.Entries.ownLine, Json.Entries.lookup, ih]
  | binary left operator right ihl ihr =>
    simp [record, recordWith, lines, Json.Value.lines, Json.Entries.linesUnder,
      Json.Entries.ownLine, Json.Entries.lookup, ihl, ihr]

/-! ## Lines of tokens -/

/-- The token begins a node of its own: it is neither a closing parenthesis nor the end. -/
def Token.beginsNode (t : Token) : Bool := t.kind ≠ .rightParen && !t.isEnd

theorem Token.lines_of_leaf? {t : Token} {e : Expr} (h : t.leaf? = some e) : e.lines = [t.line] := by
  simp only [leaf?] at h
  split at h <;> cases h <;> rfl

theorem Token.beginsNode_of_mem {t : Token} {kinds : List Kind} (h : t.kind ∈ kinds)
    (hkinds : ∀ kind ∈ kinds, kind ≠ .rightParen ∧ kind ≠ .eof) : t.beginsNode = true := by
  obtain ⟨hclosing, hend⟩ := hkinds _ h
  simp [beginsNode, hclosing, isEnd_eq_false hend]

/-- A tree has one line for each token that it is derived from, apart from closing parentheses. -/
theorem Grammar.Derives.lines_eq {rule : Rule} {ts : List Token} {e : Expr}
    (h : Derives rule ts e) : e.lines = (ts.filter Token.beginsNode).map Token.line := by
  induction h with
  | descend _ _ ih => exact ih
  | @binary rule tighter ls left operator rs right _ hop _ _ ihl ihr =>
    have hbegins : operator.beginsNode = true :=
      Token.beginsNode_of_mem (Rule.mem_expression_chained_of_mem_operators hop) (by decide)
    rw [Expr.lines, ihl, ihr, List.filter_append, List.filter_cons_of_pos hbegins, List.map_append,
      List.map_cons]
    rfl
  | @unary operator ts e hop _ ih =>
    have hbegins : operator.beginsNode = true := Token.beginsNode_of_mem hop (by decide)
    rw [Expr.lines, ih, List.filter_cons_of_pos hbegins, List.map_cons]
    rfl
  | @leaf t e h =>
    have hbegins : t.beginsNode = true :=
      Token.beginsNode_of_mem (Token.kind_mem_leaves h) (by decide)
    rw [Token.lines_of_leaf? h, List.filter_cons_of_pos hbegins]
    rfl
  | @grouping opening ts e closing hopening hclosing _ ih =>
    have hbegins : opening.beginsNode = true :=
      Token.beginsNode_of_mem (List.mem_singleton.2 hopening) (by decide)
    have hends : ¬ closing.beginsNode = true := by simp [Token.beginsNode, hclosing]
    rw [Expr.lines, ih, List.cons_append, List.filter_cons_of_pos hbegins, List.filter_append,
      List.filter_cons_of_neg hends, List.filter_nil, List.append_nil, List.map_cons]
    rfl

/-! ## Lines of places -/

namespace Segment

/-- The segment at the place is a token, and no closing parenthesis. -/
def Placed.beginsNode (p : Placed) : Bool := p.segment.text ≠ [')'] && p.segment.isToken

/-- A token of a scan is a closing parenthesis by its kind exactly if it is one by its text. -/
theorem Denotes.kind_eq_rightParen_iff {cls : LexicalClass} {text : List Char} {kind : Kind}
    {literal : Literal} (h : Denotes ⟨.lexeme cls, text⟩ kind literal) (hl : Lexeme cls text) :
    kind = .rightParen ↔ text = [')'] := by
  have hpunctuation : ∀ entry ∈ Kind.punctuation, entry.2 = .rightParen ↔ entry.1 = ')' := by decide
  constructor
  · rintro rfl
    have hoperators : ∀ entry ∈ Kind.operators,
        entry.2.1 ≠ .rightParen ∧ entry.2.2 ≠ .rightParen := by decide
    have hkeywords : ∀ entry ∈ Kind.keywords, entry.2 ≠ .rightParen := by decide
    cases h with
    | punctuation hmem => exact congrArg (fun c => [c]) ((hpunctuation _ hmem).1 rfl)
    | operator hmem => exact absurd rfl (hoperators _ hmem).1
    | operatorEqual hmem => exact absurd rfl (hoperators _ hmem).2
    | keyword hmem => exact absurd rfl (hkeywords _ hmem)
  · rintro rfl
    have hclosing : Lexeme .punctuation [')'] := .punctuation rfl
    obtain rfl := hl.class_unique hclosing
    cases h with
    | punctuation hmem => exact (hpunctuation _ hmem).2 rfl

theorem Cut.kind_eq_rightParen_iff {rest : List Char} {s : Segment} {t : Token} (h : Cut rest s)
    (hs : s.isToken = true) (ht : s.Matches t) : t.kind = .rightParen ↔ s.text = [')'] := by
  cases h with
  | lexeme hl => exact ht.denotes.kind_eq_rightParen_iff hl
  | unterminated | unexpected => cases hs

/-- The tokens that begin nodes are the segments that do. -/
theorem forall₂_beginsNode {source : List Char} {segments : List Segment}
    (h : Divides source segments) :
    List.Forall₂ (Placed.IsToken source) ((placed 0 segments).filter Placed.beginsNode)
      ((tokens 1 segments).filter Token.beginsNode) := by
  let Begins : Placed → Token → Prop := fun p t =>
    (t.beginsNode = true ↔ p.segment.text ≠ [')']) ∧ p.IsToken source t
  have hdrop : Divides (source.drop 0) segments := h
  have hbegins : List.Forall₂ Begins ((placed 0 segments).filter (·.segment.isToken))
      (tokens 1 segments) := by
    have hcut : ∀ p ∈ (placed 0 segments).filter (·.segment.isToken),
        Cut (source.drop p.start) p.segment ∧ p.segment.isToken = true := by
      intro p hp
      obtain ⟨hmem, hs⟩ := List.mem_filter.1 hp
      exact ⟨cut_of_mem_placed hdrop hmem, hs⟩
    refine ((List.forall₂_and_left _ _).2 ⟨hcut, forall₂_isToken h⟩).imp ?_
    rintro p t ⟨⟨hcut, hs⟩, ht⟩
    have hend : t.isEnd = false := Token.isEnd_eq_false ht.segment_matches.denotes.kind_ne_eof
    have hiff := not_congr (hcut.kind_eq_rightParen_iff hs ht.segment_matches)
    exact ⟨by simpa [Token.beginsNode, hend] using hiff, ht⟩
  have hfilter := List.rel_filter (p := fun p : Placed => decide (p.segment.text ≠ [')']))
    (q := Token.beginsNode) (fun p t hpt => by simpa using hpt.1.symm) hbegins
  rw [List.filter_filter] at hfilter
  exact hfilter.imp fun _ _ hpt => hpt.2

end Segment

/-! ## The tree of a run -/

open Segment

/-- The lines of a tree follow the source. In source order they are the lines of the tokens apart
from closing parentheses and the end, which are the lines of the places at which those tokens end;
they go up, from the first line to that of the end token, and the record has the same lines. -/
theorem runSource_lines {source : String} {reporter after : Reporter} {tokens : List Token}
    {result : ParseResult} {e : Expr}
    (h : runSource source reporter = (.ok (tokens, result), after)) (he : result.expr = some e) :
    ∃ segments, Divides source.toList segments ∧
      List.Forall₂ (Placed.IsToken source.toList) ((placed 0 segments).filter Placed.beginsNode)
        (tokens.filter Token.beginsNode) ∧
      e.lines = (tokens.filter Token.beginsNode).map Token.line ∧
      e.lines = ((placed 0 segments).filter Placed.beginsNode).map
        (fun p => (Text.lineAt source.toList p.stop : Int)) ∧
      tokens.getLast? =
        some ⟨.eof, "", .nil, Text.lineAt source.toList source.toList.length⟩ ∧
      Ascending (Text.lineAt source.toList source.toList.length) e.lines ∧
      e.record.lines = e.lines := by
  obtain ⟨segments, hdivides⟩ := exists_divides source.toList
  have hnotEnd := hdivides.isEnd_eq_false_of_mem_tokens 1
  have hplaces := forall₂_beginsNode hdivides
  have htokens : tokens = Segment.tokens 1 segments ++ [.ending source] := by
    simp only [runSource, scanSource_eq hdivides reporter] at h
    split at h <;> cases h
    rfl
  have hbefore : tokens.takeWhile (!·.isEnd) = Segment.tokens 1 segments := by
    rw [htokens, List.takeWhile_append_of_pos (by simpa using hnotEnd)]
    simp [Token.ending, Token.isEnd]
  have hfilter : tokens.filter Token.beginsNode =
      (Segment.tokens 1 segments).filter Token.beginsNode := by
    rw [htokens, List.filter_append]
    simp [Token.ending, Token.beginsNode, Token.isEnd]
  have hlines : e.lines = (tokens.filter Token.beginsNode).map Token.line := by
    rw [hfilter, (derives_of_runSource h he).lines_eq, hbefore]
  have hascending : Ascending (Text.lineAt source.toList source.toList.length)
      ((Segment.tokens 1 segments).map Token.line) :=
    ascending_collect (fun _ _ _ => line_of_token?) hdivides
  have hsublist : e.lines.Sublist ((Segment.tokens 1 segments).map Token.line) := by
    rw [hlines, hfilter]
    exact List.filter_sublist.map Token.line
  have hstop : List.Forall₂ Eq
      (((Segment.tokens 1 segments).filter Token.beginsNode).map Token.line)
      (((placed 0 segments).filter Placed.beginsNode).map
        (fun p => (Text.lineAt source.toList p.stop : Int))) :=
    List.forall₂_map_left_iff.2 (List.forall₂_map_right_iff.2
      (hplaces.flip.imp fun _ _ ht => ht.line))
  refine ⟨segments, hdivides, hfilter ▸ hplaces, hlines, ?_, ?_, ?_, e.lines_record⟩
  · rw [hlines, hfilter, ← List.forall₂_eq_eq_eq]
    exact hstop
  · rw [htokens, List.getLast?_concat, Token.ending, Text.lineAt, List.take_length]
  · exact ⟨hascending.pairwise.sublist hsublist, fun line hline =>
      hascending.within line (hsublist.subset hline)⟩

/-- A text on two lines, compared with a name on the third, in parentheses. -/
def groupedText : Expr :=
  .grouping (.binary (.literal (.text "a\nb") 2) ⟨.equalEqual, "==", .nil, 2⟩
    (.reference ⟨.identifier, "c", .nil, 3⟩)) 1

theorem runSource_lines_groupedText :
    ∃ tokens result after, runSource "(\"a\nb\" ==\nc)" {} = (.ok (tokens, result), after) ∧
      result.expr = some groupedText ∧
      (tokens.filter Token.beginsNode).map Token.line = [1, 2, 2, 3] ∧
      groupedText.lines = [1, 2, 2, 3] ∧ groupedText.record.lines = [1, 2, 2, 3] := by
  have hrun : (runSource "(\"a\nb\" ==\nc)" {}).1.toOption.bind (·.2.expr) = some groupedText := by
    decide +kernel
  obtain ⟨tokens, result, after, hsource, he⟩ := exists_runSource_of_expr_eq hrun
  obtain ⟨-, -, -, hlines, -, -, -, hrecord⟩ := runSource_lines hsource he
  have hnodes : groupedText.lines = [1, 2, 2, 3] := rfl
  exact ⟨tokens, result, after, hsource, he, hlines.symm.trans hnodes, hnodes, hrecord.trans hnodes⟩

end LoxSyntax
