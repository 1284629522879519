import LoxSyntax.Proofs.Expr.Lexical
import LoxSyntax.Proofs.Parse.Acceptance

/-! # Round trip from a tree to a text and back

A run of the text of a normal tree returns the tree, up to lines, without a diagnostic; and every
tree that a run returns is normal (`runSource_normal`). -/

namespace LoxSyntax

variable {source : String} {reporter reporter' : Reporter} {tokens : List Token} {e : Expr}

theorem closed_append_end {ending : Token} (h : ending.isEnd = true) :
    (tokens ++ [ending]).getLast?.any Token.isEnd = true := by
  simp [h]

/-- The tree of a run is derived by the tokens before the first end token. -/
theorem derives_of_runSource {result : ParseResult}
    (h : runSource source reporter = (.ok (tokens, result), reporter')) (he : result.expr = some e) :
    Grammar.Derives .expression (tokens.takeWhile (!·.isEnd)) e := by
  obtain ⟨segments, hdivides⟩ := exists_divides source.toList
  have hscan := scanSource_eq hdivides reporter
  have hclosed : (Segment.tokens 1 segments ++ [Token.ending source]).getLast?.any Token.isEnd = true :=
    closed_append_end rfl
  simp only [runSource, hscan] at h
  split at h
  · cases h
  · rename_i hparse
    cases h
    have hok := (Parse.parseTokens_eq_ok_iff_derives (e := e) hclosed).1 (by rw [hparse]; simp [Except.map, he])
    exact hok.1

/-- The tokens before the end token of a run are what a scan makes of their lexemes. -/
theorem isLexical_of_runSource {result : ParseResult}
    (h : runSource source reporter = (.ok (tokens, result), reporter')) :
    ∀ t ∈ tokens.takeWhile (!·.isEnd), t.IsLexical := by
  obtain ⟨scanned, scannedReporter, hscan, hwellFormed⟩ := exists_wellFormed_scanSource source reporter
  simp only [runSource, hscan] at h
  split at h
  · cases h
  · cases h
    intro t ht
    have hend : t.isEnd = false := by simpa using List.mem_takeWhile_imp ht
    exact hwellFormed.isLexical t (List.takeWhile_subset _ ht) hend

theorem exists_derives_of_runSource {result : ParseResult}
    (h : runSource source reporter = (.ok (tokens, result), reporter')) (he : result.expr = some e) :
    ∃ ts, Grammar.Derives .expression ts e :=
  ⟨_, derives_of_runSource h he⟩

section Derived

variable {scanned : Reporter} (hscan : scanSource source reporter = (.ok tokens, scanned))
  (hclosed : tokens.getLast?.any Token.isEnd)
  (h : Grammar.Derives .expression (tokens.takeWhile (!·.isEnd)) e)
  (hn : e.nesting ≤ Grammar.defaultBudget)

include hscan hclosed h hn

/-- A run comes to the tree that the tokens of the scan derive, if its nesting is in the budget, and
reports nothing after the scan. -/
theorem runSource_of_derives :
    runSource source reporter = (.ok (tokens, ⟨some e, []⟩), scanned) := by
  have hparse : (parseTokens tokens scanned).1.map ParseResult.expr = .ok (some e) :=
    (Parse.parseTokens_eq_ok_iff_derives hclosed).2 ⟨h, hn⟩
  obtain ⟨n, hread⟩ := (parseTokens_eq_ok_iff hclosed).1 hparse
  simp only [runSource, hscan, parseTokens_of_accept hclosed hread]

theorem exists_runSource_of_derives :
    ∃ result reporter', runSource source reporter = (.ok (tokens, result), reporter') ∧
      result.expr = some e :=
  ⟨_, _, runSource_of_derives hscan hclosed h hn, rfl⟩

end Derived

/-- A run comes to the tree if its outcome has the tree. -/
theorem exists_runSource_of_expr_eq
    (h : (runSource source reporter).1.toOption.bind (·.2.expr) = some e) :
    ∃ tokens result reporter', runSource source reporter = (.ok (tokens, result), reporter') ∧
      result.expr = some e := by
  obtain ⟨⟨tokens, result⟩, hresult, he⟩ := Option.bind_eq_some_iff.1 h
  cases hrun : runSource source reporter with
  | mk outcome reporter' =>
    rw [hrun] at hresult
    cases outcome with
    | error fault => cases hresult
    | ok found =>
      cases hresult
      exact ⟨tokens, result, reporter', rfl, he⟩

/-- A run of the segments of a normal tree returns the tree up to lines, without a diagnostic. -/
theorem runSource_spaced {segments : List Segment} (h : e.Spelled segments) (he : e.Normal)
    (hn : e.nesting ≤ Grammar.defaultBudget) (reporter : Reporter) :
    ∃ tokens tree, runSource (.ofList (Segment.spaced segments)) reporter =
        (.ok (tokens, ⟨some tree, []⟩), reporter) ∧ tree.eraseLines = e.eraseLines := by
  obtain ⟨tokens, ending, hscan, hmatches, hend⟩ := scanSource_spaced h.isTokenLexeme reporter
  obtain ⟨tree, hyields, herase⟩ := h.exists_yields hmatches
  have hnormal : tree.Normal := by
    rwa [← Expr.normal_eraseLines_iff, herase, Expr.normal_eraseLines_iff]
  have hderives : Grammar.Derives .expression tokens tree := hyields.derives hnormal (Nat.zero_le _)
  have hnesting : tree.nesting ≤ Grammar.defaultBudget := by
    rwa [← tree.nesting_eraseLines, herase, e.nesting_eraseLines]
  have hread := Grammar.readAll_eq_accept_iff.2
    ⟨tokens, [ending], rfl, rfl, hderives, hnesting, by simpa using hend⟩
  refine ⟨tokens ++ [ending], tree, ?_, herase⟩
  simp only [runSource, hscan, parseTokens_of_accept (closed_append_end hend) hread]

/-- Round trip. The normal form of a writable tree with a nesting of at most 800 is spelled in some
way, and however it is spelled, a run of its tokens with single spaces between them returns it up to
lines without any diagnostic. Conversely every tree that a run returns is its own normal form. -/
theorem runSource_normal (e : Expr) (hw : e.Writable) (hn : e.normal.nesting ≤ 800) :
    (∃ segments, e.normal.Spelled segments) ∧
    (∀ segments, e.normal.Spelled segments → ∃ tokens tree,
      runSource (.ofList (Segment.spaced segments)) {} = (.ok (tokens, ⟨some tree, []⟩), {}) ∧
        tree.eraseLines = e.normal.eraseLines) ∧
    ∀ source reporter reporter' tokens result tree,
      runSource source reporter = (.ok (tokens, result), reporter') →
        result.expr = some tree → tree.normal = tree := by
  refine ⟨hw.normal.exists_spelled, fun segments h => ?_, fun _ _ _ _ _ _ h he => ?_⟩
  · exact runSource_spaced h (Expr.normal_normal e) (Grammar.le_defaultBudget hn) {}
  · obtain ⟨ts, hderives⟩ := exists_derives_of_runSource h he
    exact Expr.normal_iff.1 hderives.normal.1

/-- The tree that negates the difference of two names, which needs a grouping and has none. -/
def negatedDifference : Expr :=
  .unary ⟨.minus, "-", .nil, 1⟩
    (.binary (.reference ⟨.identifier, "a", .nil, 1⟩) ⟨.minus, "-", .nil, 1⟩
      (.reference ⟨.identifier, "b", .nil, 1⟩))

theorem runSource_normal_negatedDifference :
    negatedDifference.Writable ∧ negatedDifference.normal.nesting ≤ 800 ∧
      ∃ tokens tree, runSource "- ( a - b )" {} = (.ok (tokens, ⟨some tree, []⟩), {}) ∧
        tree.eraseLines = negatedDifference.normal.eraseLines := by
  have ha : Expr.Writable (.reference ⟨.identifier, "a", .nil, 1⟩) :=
    ⟨rfl, rfl, .word rfl (by simp), by simp [Kind.keywords]⟩
  have hb : Expr.Writable (.reference ⟨.identifier, "b", .nil, 1⟩) :=
    ⟨rfl, rfl, .word rfl (by simp), by simp [Kind.keywords]⟩
  have hs : Segment.IsTokenLexeme ⟨.lexeme .punctuation, ['-']⟩ := ⟨.punctuation rfl, rfl⟩
  have hminus : Segment.Matches ⟨.lexeme .punctuation, ['-']⟩ ⟨.minus, "-", .nil, 1⟩ :=
    ⟨.punctuation (by decide), rfl⟩
  have hw : negatedDifference.Writable :=
    ⟨by decide, ⟨_, hs, hminus⟩, ha, by decide, ⟨_, hs, hminus⟩, hb⟩
  have hn : negatedDifference.normal.nesting ≤ 800 := by decide
  have hnormal : negatedDifference.normal =
      .unary ⟨.minus, "-", .nil, 1⟩ (.grouping
        (.binary (.reference ⟨.identifier, "a", .nil, 1⟩) ⟨.minus, "-", .nil, 1⟩
          (.reference ⟨.identifier, "b", .nil, 1⟩)) 1) := by decide
  have hspelled : negatedDifference.normal.Spelled
      [⟨.lexeme .punctuation, ['-']⟩, ⟨.lexeme .punctuation, ['(']⟩, ⟨.lexeme .word, ['a']⟩,
        ⟨.lexeme .punctuation, ['-']⟩, ⟨.lexeme .word, ['b']⟩, ⟨.lexeme .punctuation, [')']⟩] := by
    rw [hnormal]
    exact .unary hs hminus (by decide) (.grouping (.binary
      (Expr.spelled_reference ha) hs hminus (by decide) (Expr.spelled_reference hb)))
  obtain ⟨tokens, tree, hrun, herase⟩ := (runSource_normal negatedDifference hw hn).2.1 _ hspelled
  exact ⟨hw, hn, tokens, tree, hrun, herase⟩

end LoxSyntax
