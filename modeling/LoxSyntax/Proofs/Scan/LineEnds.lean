import LoxSyntax.Proofs.Lexical.Lookahead
import LoxSyntax.Proofs.Scan.MaximalMunch
import LoxSyntax.Text.Line

/-! # Carriage returns before newlines

A scan does not tell a line that ends with a carriage return and a newline from one that ends with a
newline alone (`scanSource_foldNewlines`), if no string contains a carriage return. The division of the
text without the carriage returns is that of the text, with those between lexemes left out and those in
comments and faults taken away (`Divides.dropReturns`): where a carriage return stood after a segment
there is the newline now, and neither belongs to the segment. -/

namespace LoxSyntax

namespace Text

/-- After each carriage return there is a newline. -/
def ReturnsPaired (cs : List Char) : Prop :=
  ∀ i, i < cs.length → cs[i]? = some '\r' → cs[i + 1]? = some '\n'

instance (cs : List Char) : Decidable (ReturnsPaired cs) := Nat.decidableBallLT _ _

def dropReturns (cs : List Char) : List Char := cs.filter (· ≠ '\r')

variable {c : Char} {cs before rest : List Char}

theorem ReturnsPaired.of_append (h : ReturnsPaired (before ++ rest)) : ReturnsPaired rest := by
  intro i hi hreturn
  have hnext := h (before.length + i) (by simp; omega)
  rw [List.getElem?_append_right (by omega), List.getElem?_append_right (by omega)] at hnext
  rw [show before.length + i - before.length = i by omega,
    show before.length + i + 1 - before.length = i + 1 by omega] at hnext
  exact hnext hreturn

theorem ReturnsPaired.tail (h : ReturnsPaired (c :: rest)) : ReturnsPaired rest :=
  @ReturnsPaired.of_append [c] rest h

theorem ReturnsPaired.next (h : ReturnsPaired ('\r' :: rest)) : rest.head? = some '\n' := by
  have hnext := h 0 (by simp) rfl
  rwa [List.getElem?_cons_succ, ← List.head?_eq_getElem?] at hnext

theorem dropReturns_eq_self (h : '\r' ∉ cs) : dropReturns cs = cs := by
  refine List.filter_eq_self.2 fun c hc => ?_
  simpa using fun heq : c = '\r' => h (heq ▸ hc)

@[simp] theorem mem_dropReturns : c ∈ dropReturns cs ↔ c ∈ cs ∧ c ≠ '\r' := by
  simp [dropReturns]

@[simp] theorem dropReturns_append (before rest : List Char) :
    dropReturns (before ++ rest) = dropReturns before ++ dropReturns rest :=
  List.filter_append ..

theorem dropReturns_cons (hc : c ≠ '\r') (cs : List Char) :
    dropReturns (c :: cs) = c :: dropReturns cs :=
  List.filter_cons_of_pos (by simpa using hc)

theorem count_newline_dropReturns (cs : List Char) : (dropReturns cs).count '\n' = cs.count '\n' :=
  List.count_filter rfl

theorem foldNewlines_eq_dropReturns (h : ReturnsPaired cs) : foldNewlines cs = dropReturns cs := by
  fun_induction foldNewlines cs with
  | case1 => rfl
  | case2 rest ih =>
    rw [ih h.tail.tail]
    rfl
  | case3 rest hrest ih =>
    obtain ⟨more, rfl⟩ := List.head?_eq_some_iff.1 h.next
    exact absurd rfl (hrest more)
  | case4 c rest hpair hc ih =>
    rw [ih h.tail, dropReturns_cons]
    rintro rfl
    exact hc rfl

/-- What comes first without the carriage returns comes first with them, or it is a newline. -/
theorem head?_dropReturns (h : ReturnsPaired cs) :
    ∀ d ∈ (dropReturns cs).head?, d ∈ cs.head? ∨ d = '\n' := by
  intro d hd
  cases cs with
  | nil => cases hd
  | cons c rest =>
    by_cases hc : c = '\r'
    · subst hc
      obtain ⟨more, rfl⟩ := List.head?_eq_some_iff.1 h.next
      cases hd
      exact .inr rfl
    · rw [dropReturns_cons hc] at hd
      exact .inl hd

end Text

open Text (ReturnsPaired)

theorem Lexeme.return_not_mem {cls : LexicalClass} {text : List Char} (h : Lexeme cls text)
    (hcls : cls.isToken) (hstring : cls ≠ .string) : '\r' ∉ text := by
  have hmem : cls ∈ [.punctuation, .operator, .slash, .number, .word] := by
    cases cls <;> simp_all [LexicalClass.isToken]
  intro hreturn
  exact absurd (h.inToken_of_mem hmem _ hreturn) (by decide)

namespace Segment

variable {s : Segment} {source rest : List Char} {segments : List Segment}

def carriageReturn : Segment := ⟨.lexeme .blank, ['\r']⟩

def dropReturns (s : Segment) : Segment := ⟨s.sort, Text.dropReturns s.text⟩

/-- The segments without their carriage returns, and without those that are nothing else. -/
def dropAllReturns (segments : List Segment) : List Segment :=
  (segments.filter (· ≠ carriageReturn)).map dropReturns

theorem newlines_dropReturns (s : Segment) : s.dropReturns.newlines = s.newlines :=
  Text.count_newline_dropReturns s.text

/-- A string without carriage returns, or anything else. -/
def StringIntact (s : Segment) : Prop := s.sort = .lexeme .string → '\r' ∉ s.text

theorem Cut.dropReturns_eq (h : Cut source s) (hs : s.isToken) (hstring : s.StringIntact) :
    s.dropReturns = s := by
  cases h with
  | @lexeme _ cls text hl =>
    have hreturn : '\r' ∉ text := by
      by_cases hcls : cls = .string
      · exact hstring (by rw [hcls])
      · exact hl.return_not_mem hs hcls
    rw [dropReturns, Text.dropReturns_eq_self hreturn]
  | unterminated | unexpected => cases hs

/-- Where a carriage return stood there is the newline now. -/
theorem Exchange.dropReturns (h : ReturnsPaired rest) : Exchange rest (Text.dropReturns rest) := by
  refine ⟨fun d hd => (Text.head?_dropReturns h d hd).imp_right ?_, fun hpoint d more heq => ?_⟩
  · rintro rfl
    rfl
  · have hdot : rest.head? = some '.' :=
      (Text.head?_dropReturns h '.' (by rw [heq]; rfl)).resolve_right (by decide)
    obtain ⟨rest, rfl⟩ := List.head?_eq_some_iff.1 hdot
    rw [Text.dropReturns_cons (by decide)] at heq
    have hd : d ∈ (Text.dropReturns rest).head? := by rw [(List.cons.inj heq).2]; rfl
    rcases Text.head?_dropReturns h.tail d hd with hd | rfl
    · obtain ⟨more, rfl⟩ := List.head?_eq_some_iff.1 hd
      exact hpoint d more rfl
    · rfl

/-- A segment stands before the rest without the carriage returns too. -/
theorem StandsBefore.dropReturns (h : StandsBefore s rest) (hs : s ≠ carriageReturn)
    (hstring : s.StringIntact) (hrest : ReturnsPaired rest) :
    StandsBefore s.dropReturns (Text.dropReturns rest) := by
  by_cases htoken : s.isToken
  · rw [h.cut.dropReturns_eq htoken hstring]
    refine h.exchange (.dropReturns hrest) (fun hcomment => ?_) fun hunterminated => ?_
    · simp [isToken, hcomment, LexicalClass.isToken] at htoken
    · simp [isToken, hunterminated] at htoken
  cases h with
  | @comment body _ h hnext =>
    have hbody : '\n' ∉ Text.dropReturns body := fun hmem => h (Text.mem_dropReturns.1 hmem).1
    exact .comment hbody fun d hd => (Text.head?_dropReturns hrest d hd).elim (hnext d) id
  | @blank c _ h =>
    have hc : c ≠ '\r' := by
      rintro rfl
      exact hs rfl
    rw [Segment.dropReturns, Text.dropReturns_cons hc]
    exact .blank h
  | newline => exact .newline
  | @unterminated body h =>
    exact .unterminated fun hmem => h (Text.mem_dropReturns.1 hmem).1
  | @unexpected c _ h =>
    have hc : c ≠ '\r' := by
      rintro rfl
      cases h
    rw [Segment.dropReturns, Text.dropReturns_cons hc]
    exact .unexpected h
  | _ => exact absurd rfl htoken

theorem collect_dropAllReturns {α : Type} {find? : Nat → Segment → Option α}
    (hreturn : ∀ line, find? line carriageReturn = none)
    (h : ∀ s ∈ segments, ∀ line, find? line s.dropReturns = find? line s) (line : Nat) :
    collect find? line (dropAllReturns segments) = collect find? line segments := by
  induction segments generalizing line with
  | nil => rfl
  | cons s segments ih =>
    obtain ⟨hs, hsegments⟩ := List.forall_mem_cons.1 h
    by_cases hne : s = carriageReturn
    · subst hne
      rw [dropAllReturns, List.filter_cons_of_neg (by simp), ← dropAllReturns, ih hsegments,
        collect, hreturn]
      rfl
    · rw [dropAllReturns, List.filter_cons_of_pos (by simpa using hne), List.map_cons,
        ← dropAllReturns, collect, collect, newlines_dropReturns, hs, ih hsegments]

end Segment

namespace Divides

variable {source : List Char} {segments : List Segment}

theorem dropReturns (h : Divides source segments) (hsource : ReturnsPaired source)
    (hstrings : ∀ s ∈ segments, s.StringIntact) :
    Divides (Text.dropReturns source) (Segment.dropAllReturns segments) := by
  induction h with
  | nil => exact .nil
  | @cons source s rest segments hcut hsplit _ ih =>
    obtain ⟨hs, hsegments⟩ := List.forall_mem_cons.1 hstrings
    subst hsplit
    have hrest := ih hsource.of_append hsegments
    rw [Text.dropReturns_append]
    by_cases hne : s = .carriageReturn
    · subst hne
      rwa [Segment.dropAllReturns, List.filter_cons_of_neg (by simp)]
    · rw [Segment.dropAllReturns, List.filter_cons_of_pos (by simpa using hne), List.map_cons]
      obtain ⟨rest', hsplit, hstands⟩ := Segment.cut_iff.1 hcut
      obtain rfl := List.append_cancel_left hsplit
      exact .cons (hstands.dropReturns hne hs hsource.of_append).cut rfl hrest

theorem token?_dropReturns {s : Segment} (h : Divides source segments) (hstring : s.StringIntact)
    (hs : s ∈ segments) (line : Nat) : s.dropReturns.token? line = s.token? line := by
  obtain ⟨rest, hstands⟩ := h.exists_standsBefore_of_mem s hs
  cases htoken : s.isToken with
  | true => rw [hstands.cut.dropReturns_eq htoken hstring]
  | false => rw [Segment.token?_eq_none htoken, Segment.token?_eq_none (s := s.dropReturns) htoken]

end Divides

variable {source : String} {tokens : List Token} {scanned : Reporter}

theorem Divides.exists_mem_tokens {source : List Char} {segments : List Segment} {s : Segment}
    (h : Divides source segments) (hs : s ∈ segments) (htoken : s.isToken) (line : Nat) :
    ∃ t ∈ Segment.tokens line segments, s.Matches t := by
  obtain ⟨hlength, hget⟩ := List.forall₂_iff_get.1 (h.forall₂_tokens line)
  obtain ⟨i, hi, rfl⟩ := List.getElem_of_mem (List.mem_filter.2 ⟨hs, htoken⟩)
  exact ⟨_, List.getElem_mem (hlength ▸ hi), hget i hi (hlength ▸ hi)⟩

theorem Segment.Denotes.kind_eq_string {s : Segment} {kind : Kind} {literal : Literal}
    (h : s.Denotes kind literal) (hs : s.sort = .lexeme .string) : kind = .string := by
  cases h with
  | string => rfl
  | _ => cases hs

/-- The carriage returns of a text with a newline after each are nothing to its scan, if no string
token has one. -/
theorem scanSource_foldNewlines (hsource : ReturnsPaired source.toList)
    (hscan : scanSource source {} = (.ok tokens, scanned))
    (hstrings : ∀ t ∈ tokens, t.kind = .string → '\r' ∉ t.lexeme.toList) :
    scanSource (.ofList (Text.foldNewlines source.toList)) {} = (.ok tokens, scanned) := by
  obtain ⟨segments, hdivides⟩ := exists_divides source.toList
  have hfound := scanSource_eq hdivides {}
  cases hscan.symm.trans hfound
  have hintact : ∀ s ∈ segments, s.StringIntact := by
    intro s hs hstring
    have htoken : s.isToken := by rw [Segment.isToken, hstring]; rfl
    obtain ⟨t, ht, hmatches⟩ := hdivides.exists_mem_tokens hs htoken 1
    have hreturn := hstrings t (List.mem_append_left _ ht) (hmatches.denotes.kind_eq_string hstring)
    rwa [hmatches.lexeme, String.toList_ofList] at hreturn
  have hdropped := hdivides.dropReturns hsource hintact
  have htokens : Segment.tokens 1 (Segment.dropAllReturns segments) = Segment.tokens 1 segments :=
    Segment.collect_dropAllReturns (fun _ => rfl)
      (fun s hs => hdivides.token?_dropReturns (hintact s hs) hs) 1
  have hdiagnostics :
      Segment.diagnostics 1 (Segment.dropAllReturns segments) = Segment.diagnostics 1 segments :=
    Segment.collect_dropAllReturns (fun _ => rfl) (fun _ _ _ => rfl) 1
  have hending : Token.ending (.ofList (Text.dropReturns source.toList)) = Token.ending source := by
    rw [Token.ending, Token.ending, String.toList_ofList, Text.count_newline_dropReturns]
  rw [Text.foldNewlines_eq_dropReturns hsource, scanSource_eq (by rwa [String.toList_ofList]),
    htokens, hdiagnostics, hending]

end LoxSyntax
