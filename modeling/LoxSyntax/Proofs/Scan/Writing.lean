import LoxSyntax.Proofs.Scan.Spacing

/-! # Token lists as texts

`Token.WellFormed` are the token lists that a scan may come to: each token is what a scan makes of
its lexeme, and the lines leave room for the newlines in the lexemes. `Token.write` writes such a
list with one space before each lexeme and newlines before that for the lines still missing. The
scan of the text is the list again, and the scan of any text is well formed
(`scanSource_write`). -/

namespace LoxSyntax

namespace Token

/-- The token is what a scan makes of its lexeme. -/
def IsLexical (t : Token) : Prop := ∃ s : Segment, s.IsTokenLexeme ∧ s.Matches t

/-- How many newlines there are in the lexeme. -/
def newlines (t : Token) : Nat := t.lexeme.toList.count '\n'

/-- The tokens after the line: an end token closes them, each of the others is what a scan makes of
its lexeme, and each ends at least as many lines after the one before it as its lexeme has
newlines. -/
inductive WellFormedAfter : Int → List Token → Prop
  | ending {line last : Int} : line ≤ last → WellFormedAfter line [⟨.eof, "", .nil, last⟩]
  | cons {line : Int} {t : Token} {ts : List Token} : t.IsLexical →
      line + t.newlines ≤ t.line → WellFormedAfter t.line ts → WellFormedAfter line (t :: ts)

/-- A token list that a scan may come to. -/
def WellFormed (tokens : List Token) : Prop := WellFormedAfter 1 tokens

/-- The text of the tokens after the line: before each lexeme as many newlines as its line still
requires, and a space. -/
def written (line : Int) : List Token → List Char
  | [] => []
  | t :: ts =>
    List.replicate (t.line - line - t.newlines).toNat '\n' ++ ' ' :: (t.lexeme.toList ++
      written t.line ts)

def write (tokens : List Token) : String := .ofList (written 1 tokens)

end Token

namespace Segment

def newline : Segment := ⟨.lexeme .newline, ['\n']⟩

/-- The segments of a gap: newlines and a space. -/
def gap (lines : Nat) : List Segment := List.replicate lines newline ++ [space]

variable {s : Segment} {t : Token} {source rest : List Char} {segments : List Segment}

theorem divides_gap (lines : Nat) (h : Divides rest segments) :
    Divides (List.replicate lines '\n' ++ ' ' :: rest) (gap lines ++ segments) := by
  induction lines with
  | zero => exact .cons (.blank rfl) rfl h
  | succ lines ih => exact .cons .newline rfl ih

theorem tokens_gap (line lines : Nat) (segments : List Segment) :
    tokens line (gap lines ++ segments) = tokens (line + lines) segments := by
  induction lines generalizing line with
  | zero => rfl
  | succ lines ih =>
    have hcons : tokens line (gap (lines + 1) ++ segments) =
        tokens (line + 1) (gap lines ++ segments) := rfl
    rw [hcons, ih, Nat.add_assoc, Nat.add_comm 1]

theorem problem?_gap (lines : Nat) : ∀ s ∈ gap lines, s.problem? = none := by
  intro s hs
  rcases List.mem_append.1 hs with hs | hs
  · rw [List.eq_of_mem_replicate hs]
    rfl
  · rw [List.mem_singleton.1 hs]
    rfl

theorem Matches.newlines_eq (h : s.Matches t) : t.newlines = s.newlines := by
  rw [Token.newlines, h.lexeme, String.toList_ofList, newlines]

theorem Matches.tokens_cons {line : Nat} (h : s.Matches t) (hs : s.IsTokenLexeme)
    (hline : t.line = (line + s.newlines : Nat)) :
    tokens line (s :: segments) = t :: tokens (line + s.newlines) segments := by
  obtain ⟨hl, -⟩ := hs
  obtain ⟨kind, lexeme, literal, _⟩ := t
  obtain ⟨hdenotes, rfl⟩ := h
  obtain rfl := hline
  simp [tokens, collect, hdenotes.token?_eq hl]

theorem Cut.isTokenLexeme (h : Cut source s) (hs : s.isToken) : s.IsTokenLexeme := by
  cases h with
  | lexeme hl => exact ⟨hl, hs⟩
  | unterminated | unexpected => cases hs

end Segment

namespace Token

variable {tokens : List Token}

theorem gapAhead_written (line : Int) (tokens : List Token) :
    Segment.GapAhead (written line tokens) := by
  cases tokens with
  | nil => simp [written, Segment.GapAhead]
  | cons t ts =>
    rw [written]
    cases (t.line - line - t.newlines).toNat with
    | zero => simp [Segment.GapAhead]
    | succ lines => simp [Segment.GapAhead, List.replicate_succ]

/-- The text of a well-formed list is divided into gaps and the lexemes of the tokens. -/
theorem WellFormedAfter.exists_divides {line : Nat} (h : WellFormedAfter line tokens) :
    ∃ segments, Divides (written line tokens) segments ∧
      Segment.tokens line segments ++
        [⟨.eof, "", .nil, (line + (written line tokens).count '\n' : Nat)⟩] = tokens ∧
      ∀ s ∈ segments, s.problem? = none := by
  generalize hline : (line : Int) = bound at h
  induction h generalizing line with
  | @ending _ last hle =>
    subst hline
    obtain ⟨lines, rfl⟩ : ∃ lines : Nat, last = line + lines := ⟨(last - line).toNat, by omega⟩
    have hlines : ((line + lines : Int) - line - newlines ⟨.eof, "", .nil, line + lines⟩).toNat =
        lines := by
      simp only [newlines, String.toList_empty, List.count_nil]
      omega
    have hwritten : written line [⟨.eof, "", .nil, line + lines⟩] =
        List.replicate lines '\n' ++ [' '] := by
      rw [written, hlines]
      rfl
    have htokens : Segment.tokens line (Segment.gap lines) = [] := by
      have hgap := Segment.tokens_gap line lines []
      rwa [List.append_nil] at hgap
    refine ⟨Segment.gap lines, ?_, ?_, Segment.problem?_gap lines⟩
    · have hgap := Segment.divides_gap lines .nil
      rw [List.append_nil] at hgap
      rw [hwritten]
      exact hgap
    · rw [htokens, hwritten]
      simp
  | @cons _ t ts hlexical hle _ ih =>
    subst hline
    obtain ⟨s, hs, hmatches⟩ := hlexical
    obtain ⟨lines, hlines⟩ : ∃ lines : Nat, t.line = (line + lines + s.newlines : Nat) := by
      rw [hmatches.newlines_eq] at hle
      exact ⟨(t.line - line - s.newlines).toNat, by omega⟩
    have hgap : (t.line - line - t.newlines).toNat = lines := by
      rw [hmatches.newlines_eq]
      omega
    obtain ⟨segments, hdivides, htokens, hproblem⟩ := ih hlines.symm
    rw [written, hgap, hmatches.lexeme, String.toList_ofList]
    refine ⟨Segment.gap lines ++ s :: segments, ?_, ?_, ?_⟩
    · exact Segment.divides_gap lines (.cons (hs.cut (gapAhead_written _ _)) rfl hdivides)
    · have hcount : line +
          (List.replicate lines '\n' ++ ' ' :: (s.text ++ written t.line ts)).count '\n' =
            line + lines + s.newlines + (written t.line ts).count '\n' := by
        simp [Segment.newlines, Nat.add_assoc]
      rw [Segment.tokens_gap, hmatches.tokens_cons hs hlines, hcount, List.cons_append, htokens]
    · exact List.forall_mem_append.2 ⟨Segment.problem?_gap lines,
        List.forall_mem_cons.2 ⟨hs.problem?_eq_none, hproblem⟩⟩

theorem WellFormedAfter.mono {line line' : Int} (h : WellFormedAfter line tokens)
    (hle : line' ≤ line) : WellFormedAfter line' tokens := by
  cases h with
  | ending h => exact .ending (Int.le_trans hle h)
  | cons hlexical h hrest =>
    exact .cons hlexical (Int.le_trans (Int.add_le_add_right hle _) h) hrest

end Token

/-- The tokens of a division are well formed. -/
theorem Divides.wellFormedAfter {source : List Char} {segments : List Segment}
    (h : Divides source segments) (line : Nat) :
    Token.WellFormedAfter line (Segment.tokens line segments ++
      [⟨.eof, "", .nil, (line + source.count '\n' : Nat)⟩]) := by
  induction h generalizing line with
  | nil => exact .ending (Int.le_refl _)
  | @cons source s rest segments hcut hsource _ ih =>
    have hcount : line + source.count '\n' = line + s.newlines + rest.count '\n' := by
      rw [hsource, List.count_append, Segment.newlines, Nat.add_assoc]
    rw [hcount]
    have hrest := ih (line + s.newlines)
    cases hs : s.isToken with
    | false =>
      have htokens : Segment.tokens line (s :: segments) =
          Segment.tokens (line + s.newlines) segments := by
        simp [Segment.tokens, Segment.collect, Segment.token?_eq_none hs]
      rw [htokens]
      exact hrest.mono (by omega)
    | true =>
      obtain ⟨t, ht, hmatches⟩ := hcut.exists_token hs (line + s.newlines)
      have hline : t.line = (line + s.newlines : Nat) := by
        obtain ⟨kind, -, rfl⟩ := Option.map_eq_some_iff.1 ht
        rfl
      have hlexeme := hcut.isTokenLexeme hs
      rw [hmatches.tokens_cons hlexeme hline, List.cons_append]
      refine .cons ⟨s, hlexeme, hmatches⟩ ?_ (hline ▸ hrest)
      rw [hmatches.newlines_eq, hline]
      omega

/-- The scan of the text of a well-formed list is the list, without a diagnostic. -/
theorem Token.WellFormed.scan_write {tokens : List Token} (h : WellFormed tokens)
    (reporter : Reporter) : scanSource (write tokens) reporter = (.ok tokens, reporter) := by
  have hafter : WellFormedAfter (1 : Nat) tokens := h
  obtain ⟨segments, hdivides, htokens, hproblem⟩ := hafter.exists_divides
  have hending : ending (write tokens) =
      ⟨.eof, "", .nil, (1 + (written (1 : Nat) tokens).count '\n' : Nat)⟩ := by
    rw [ending, write, String.toList_ofList]
    rfl
  rw [scanSource_eq (by rwa [write, String.toList_ofList]), Segment.diagnostics_eq_nil hproblem,
    hending, htokens]
  simp

/-- The scan of a text comes to a well-formed list. -/
theorem exists_wellFormed_scanSource (source : String) (reporter : Reporter) :
    ∃ tokens reporter', scanSource source reporter = (.ok tokens, reporter') ∧
      Token.WellFormed tokens := by
  obtain ⟨segments, h⟩ := exists_divides source.toList
  exact ⟨_, _, scanSource_eq h reporter, h.wellFormedAfter 1⟩

/-- Round trip between token lists and texts. The scan of the text of a well-formed list is exactly
the list, lines included, and reports nothing; the scan of any text is well formed, so writing and
scanning it once more changes nothing. -/
theorem scanSource_write :
    (∀ tokens, Token.WellFormed tokens → ∀ reporter,
      scanSource (Token.write tokens) reporter = (.ok tokens, reporter)) ∧
    ∀ source reporter, ∃ tokens reporter', scanSource source reporter = (.ok tokens, reporter') ∧
      Token.WellFormed tokens ∧
      ∀ fresh, scanSource (Token.write tokens) fresh = (.ok tokens, fresh) := by
  refine ⟨fun _ h => h.scan_write, fun source reporter => ?_⟩
  obtain ⟨tokens, reporter', hscan, h⟩ := exists_wellFormed_scanSource source reporter
  exact ⟨tokens, reporter', hscan, h, h.scan_write⟩

/-- A text over two lines between an operator and a number, with an empty line before the number. -/
def twoLineText : List Token :=
  [⟨.bangEqual, "!=", .nil, 1⟩, ⟨.string, "\"a\nb\"", .text "a\nb", 2⟩,
    ⟨.number, "7", .number (.signed false (Decimal.ofLexeme ['7']).nearest), 4⟩,
    ⟨.eof, "", .nil, 4⟩]

theorem scanSource_write_twoLineText :
    Token.WellFormed twoLineText ∧
      Token.write twoLineText = " != \"a\nb\"\n\n 7 " ∧
      scanSource " != \"a\nb\"\n\n 7 " {} = (.ok twoLineText, {}) := by
  have hbang : ('!', Kind.bang, Kind.bangEqual) ∈ Kind.operators := List.mem_cons_self
  have hoperator : Token.IsLexical ⟨.bangEqual, "!=", .nil, 1⟩ :=
    ⟨⟨.lexeme .operator, ['!', '=']⟩, ⟨.operatorEqual rfl, rfl⟩, .operatorEqual hbang, rfl⟩
  have hstring : Token.IsLexical ⟨.string, "\"a\nb\"", .text "a\nb", 2⟩ :=
    ⟨⟨.lexeme .string, '"' :: (['a', '\n', 'b'] ++ ['"'])⟩, ⟨.string (by decide), rfl⟩, .string,
      rfl⟩
  have hseven : Lexeme .number ['7'] := .integer rfl (by simp)
  have hnumber : Token.IsLexical
      ⟨.number, "7", .number (.signed false (Decimal.ofLexeme ['7']).nearest), 4⟩ :=
    ⟨⟨.lexeme .number, ['7']⟩, ⟨hseven, rfl⟩, .number hseven.ofText?_eq, rfl⟩
  have h : Token.WellFormed twoLineText :=
    .cons hoperator (by decide) (.cons hstring (by decide) (.cons hnumber (by decide)
      (.ending (by decide))))
  have hwrite : Token.write twoLineText = " != \"a\nb\"\n\n 7 " := by rfl
  exact ⟨h, hwrite, hwrite ▸ scanSource_write.1 twoLineText h {}⟩

end LoxSyntax
