import LoxSyntax.Proofs.Expr.Record
import LoxSyntax.Proofs.Json.Layout
import LoxSyntax.Proofs.Run.Strictness

/-! # What a run writes as JSON

The JSON of a run determines the tree that the run has read, lines included
(`Run.stdout_text_json_eq_iff`): the text determines the document, and the document keeps all there is
in a tree whose tokens come from a scan. This needs room to write one of the trees at least, since
nothing is written of two trees that are both too deep, and texts that consist of characters, since the
two units of a pair are escaped like the character that they make up
(`Run.stdout_text_json_eq_sumOfOnes`). -/

namespace LoxSyntax

variable {source source' : String} {tokens tokens' : List Token} {result result' : ParseResult}
  {reporter reporter' : Reporter} {e e' : Expr} {room : Nat}

namespace Run

/-- The JSON of an expression is written as far as there is room. -/
theorem render_json (he : result.expr = some e) (room : Nat) :
    Modes.render { json := true } tokens result room =
      Expr.reach Expr.recordCost room e.depth (e.record.layout 0 ++ "\n") := by
  rw [← Text.unlines_singleton]
  exact Modes.render_eq_reach rfl he rfl room

section OneRun

variable (h : runSource source {} = (.ok (tokens, result), reporter)) (he : result.expr = some e)

include h he

theorem stdout_text_json (hroom : Expr.recordCost * e.depth ≤ room) :
    (text source { json := true } false room).output.stdout = e.record.layout 0 ++ "\n" := by
  rw [text_plain h ((render_json he room).trans (Expr.reach_of_le hroom _))]
  rfl

theorem stdout_text_json_of_tooDeep (hroom : room < Expr.recordCost * e.depth) :
    (text source { json := true } false room).output.stdout = "" := by
  rw [text_plain_of_tooDeep h ((render_json he room).trans (Expr.reach_of_lt hroom _))]
  rfl

end OneRun

theorem layout_newline_ne_empty (v : Json.Value) : v.layout 0 ++ "\n" ≠ "" := by
  rw [← Text.unlines_singleton]
  exact Text.unlines_singleton_ne_empty _

/-- Two runs that come to trees, of which one at least there is room to write, write the same JSON
exactly if the trees are the same. Their texts consist of characters, so that no unit of a pair stands
in them by itself. -/
theorem stdout_text_json_eq_iff (h : runSource source {} = (.ok (tokens, result), reporter))
    (he : result.expr = some e) (h' : runSource source' {} = (.ok (tokens', result'), reporter'))
    (he' : result'.expr = some e')
    (hroom : Expr.recordCost * e.depth ≤ room ∨ Expr.recordCost * e'.depth ≤ room) :
    (text source { json := true } false room).output.stdout =
      (text source' { json := true } false room).output.stdout ↔ e = e' := by
  constructor
  · intro htext
    by_cases hboth : Expr.recordCost * e.depth ≤ room ∧ Expr.recordCost * e'.depth ≤ room
    · rw [stdout_text_json h he hboth.1, stdout_text_json h' he' hboth.2] at htext
      have hlayout := String.append_left_inj _ |>.1 htext
      have hlexical := (derives_of_runSource h he).isLexical (isLexical_of_runSource h)
      have hlexical' := (derives_of_runSource h' he').isLexical (isLexical_of_runSource h')
      exact Expr.record_injective hlexical hlexical' (Json.Value.layout_injective 0 hlayout)
    · -- One of the two runs writes something and the other nothing.
      rcases hroom with hroom | hroom
      · rw [stdout_text_json h he hroom, stdout_text_json_of_tooDeep h' he' (by omega)] at htext
        exact absurd htext (layout_newline_ne_empty _)
      · rw [stdout_text_json h' he' hroom, stdout_text_json_of_tooDeep h he (by omega)] at htext
        exact absurd htext.symm (layout_newline_ne_empty _)
  · rintro rfl
    have hreach : Expr.recordCost * e.depth ≤ room := or_self_iff.1 hroom
    rw [stdout_text_json h he hreach, stdout_text_json h' he' hreach]

/-- A name on the first line. -/
def loneName : Token := ⟨.identifier, "a", .nil, 1⟩

theorem cut_loneName : Segment.Cut ['a'] ⟨.lexeme .word, ['a']⟩ := by
  have hcut : Segment.Cut ('a' :: ([] ++ [])) ⟨.lexeme .word, ['a']⟩ :=
    .word rfl (by simp) (by simp)
  exact hcut

theorem derives_loneName : Grammar.Derives .expression [loneName] (.reference loneName) := by
  have hleaf : Grammar.Derives .primary [loneName] (.reference loneName) := .leaf rfl
  exact .descend rfl (.descend rfl (.descend rfl (.descend rfl (.descend rfl (.descend rfl hleaf)))))

/-- The name alone, and after a character that no token begins with. -/
theorem stdout_text_json_eq_loneName :
    ∃ tokens result reporter tokens' result' reporter',
      runSource "a" {} = (.ok (tokens, result), reporter) ∧ result.expr = some (.reference loneName) ∧
      runSource "@a" {} = (.ok (tokens', result'), reporter') ∧
      result'.expr = some (.reference loneName) ∧
      (text "a" { json := true } false).output.stdout =
        (text "@a" { json := true } false).output.stdout := by
  have hdivides : Divides "a".toList [⟨.lexeme .word, ['a']⟩] := .cons cut_loneName rfl .nil
  have hdivides' : Divides "@a".toList [⟨.unexpected, ['@']⟩, ⟨.lexeme .word, ['a']⟩] :=
    .cons (.unexpected_of_nothing (by decide)) rfl (.cons cut_loneName rfl .nil)
  obtain ⟨result, reporter, hrun, he⟩ :=
    exists_runSource_of_derives (scanSource_eq hdivides {}) rfl derives_loneName (by decide)
  obtain ⟨result', reporter', hrun', he'⟩ :=
    exists_runSource_of_derives (scanSource_eq hdivides' {}) rfl derives_loneName (by decide)
  exact ⟨_, result, reporter, _, result', reporter', hrun, he, hrun', he',
    (stdout_text_json_eq_iff hrun he hrun' he' (.inl (by decide))).2 rfl⟩

/-- The JSON of two sums of different lengths is the same if both are too long. And the two units of a
character are escaped like the character, so they would be the same in the JSON of a text. -/
theorem stdout_text_json_eq_sumOfOnes :
    (∃ tokens result tokens' result' e e',
      runSource (sumOfOnes 1000) {} = (.ok (tokens, result), {}) ∧ result.expr = some e ∧
      runSource (sumOfOnes 1001) {} = (.ok (tokens', result'), {}) ∧ result'.expr = some e' ∧
      (text (sumOfOnes 1000) { json := true } false).output.stdout =
        (text (sumOfOnes 1001) { json := true } false).output.stdout ∧ e ≠ e') ∧
    [0xD83D, 0xDE00].flatMap Json.escapeCode = [0x1F600].flatMap Json.escapeCode := by
  obtain ⟨tokens, hrun⟩ := runSource_sumOfOnes 1000 {}
  obtain ⟨tokens', hrun'⟩ := runSource_sumOfOnes 1001 {}
  have hdepth : (Expr.one.plusOnes 1000).depth = 1000 := Expr.depth_plusOnes 1000 .one
  have hdepth' : (Expr.one.plusOnes 1001).depth = 1001 := Expr.depth_plusOnes 1001 .one
  have hne : Expr.one.plusOnes 1000 ≠ Expr.one.plusOnes 1001 := by
    intro heq
    rw [heq, hdepth'] at hdepth
    omega
  refine ⟨⟨tokens, _, tokens', _, _, _, hrun, rfl, hrun', rfl, ?_, hne⟩, ?_⟩
  · rw [stdout_text_json_of_tooDeep hrun rfl (by rw [hdepth]; decide),
      stdout_text_json_of_tooDeep hrun' rfl (by rw [hdepth']; decide)]
  · have hpair : (Json.units16 '😀').flatMap Json.escapeCode = Json.escapeChar '😀' :=
      Json.flatMap_escapeCode_units16 (by decide)
    have hchar : Json.escapeCode 0x1F600 = Json.escapeChar '😀' := Json.escapeCode_toNat '😀'
    rw [List.flatMap_singleton, hchar]
    exact hpair

end Run

end LoxSyntax
