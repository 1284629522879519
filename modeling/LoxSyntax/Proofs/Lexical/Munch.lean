import LoxSyntax.Proofs.Lexical.Division

/-! # The longest lexeme at the front of a text

What `Segment.Cut` cuts from a text, for each opening. A lexeme at the front of a text goes on as its
first character permits (`Lexeme.continues`), so the longest one is found by looking at the characters
after the first, and where none is found the text begins with no lexeme. -/

namespace LoxSyntax

section Runs

variable {p : Char → Bool} {ds ds' rest rest' : List Char}

theorem takeWhile_append_stop (h : ∀ d ∈ ds, p d) (hrest : ∀ d ∈ rest.head?, p d = false) :
    (ds ++ rest).takeWhile p = ds := by
  rw [List.takeWhile_append_of_pos h]
  cases rest with
  | nil => simp
  | cons d rest => simp [hrest d rfl]

theorem dropWhile_append_stop (h : ∀ d ∈ ds, p d) (hrest : ∀ d ∈ rest.head?, p d = false) :
    (ds ++ rest).dropWhile p = rest := by
  rw [List.dropWhile_append_of_pos h]
  cases rest with
  | nil => simp
  | cons d rest => simp [hrest d rfl]

theorem exists_run (p : Char → Bool) (cs : List Char) :
    ∃ ds rest, cs = ds ++ rest ∧ (∀ d ∈ ds, p d) ∧ ∀ d ∈ rest.head?, p d = false := by
  refine ⟨cs.takeWhile p, cs.dropWhile p, List.takeWhile_append_dropWhile.symm,
    fun d hd => List.mem_takeWhile_imp hd, fun d hd => ?_⟩
  have hstop := List.head?_dropWhile_not p cs
  rw [Option.mem_def.1 hd] at hstop
  simpa using hstop

theorem length_le_of_prefix_run (h : ∀ d ∈ ds, p d) (hrest : ∀ d ∈ rest.head?, p d = false)
    (h' : ∀ d ∈ ds', p d) (hp : ds' <+: ds ++ rest) : ds'.length ≤ ds.length := by
  obtain ⟨more, heq⟩ := hp
  have htake := congrArg (List.takeWhile p) heq
  rw [List.takeWhile_append_of_pos h', takeWhile_append_stop h hrest] at htake
  simp [← htake]

/-- A run and what follows it are known from the text that they make up. -/
theorem run_unique (h : ∀ d ∈ ds, p d) (hrest : ∀ d ∈ rest.head?, p d = false)
    (h' : ∀ d ∈ ds', p d) (hrest' : ∀ d ∈ rest'.head?, p d = false) (heq : ds ++ rest = ds' ++ rest') :
    ds = ds' ∧ rest = rest' := by
  have htake := congrArg (List.takeWhile p) heq
  rw [takeWhile_append_stop h hrest, takeWhile_append_stop h' hrest'] at htake
  subst htake
  exact ⟨rfl, List.append_cancel_left heq⟩

end Runs

namespace Segment

variable {c d : Char} {cs ds digits fraction body rest : List Char} {cls : LexicalClass}

theorem noLexeme_of_continues
    (h : ∀ cls ds, (Opening.of c).Continues cls ds → ¬ ds <+: cs) : NoLexeme (c :: cs) := by
  intro cls text htext hp
  obtain ⟨c', ds, rfl⟩ := List.exists_cons_of_ne_nil htext.ne_nil
  obtain ⟨rfl, hds⟩ := List.cons_prefix_cons.1 hp
  exact h cls ds htext.continues hds

namespace Cut

theorem of_continues (h : Lexeme cls (c :: ds)) (hp : ds <+: cs)
    (hmax : ∀ cls' ds', (Opening.of c).Continues cls' ds' → ds' <+: cs →
      ds'.length ≤ ds.length) : Cut (c :: cs) ⟨.lexeme cls, c :: ds⟩ := by
  refine .lexeme h (List.cons_prefix_cons.2 ⟨rfl, hp⟩) fun cls' text htext htp => ?_
  obtain ⟨c', ds', rfl⟩ := List.exists_cons_of_ne_nil htext.ne_nil
  obtain ⟨rfl, hds⟩ := List.cons_prefix_cons.1 htp
  simpa using hmax cls' ds' htext.continues hds

theorem punctuation {kind : Kind} (h : Kind.ofPunctuation? c = some kind) :
    Cut (c :: cs) ⟨.lexeme .punctuation, [c]⟩ := by
  refine of_continues (.punctuation h) List.nil_prefix fun cls ds hds _ => ?_
  rw [Opening.of_punctuation h] at hds
  cases cls <;> simp_all [Opening.Continues]

theorem operator {kinds : Kind × Kind} (h : Kind.ofOperator? c = some kinds)
    (hrest : rest.head? ≠ some '=') : Cut (c :: rest) ⟨.lexeme .operator, [c]⟩ := by
  refine of_continues (.operator h) List.nil_prefix fun cls ds hds hp => ?_
  rw [Opening.of_operator h] at hds
  cases cls with
  | operator =>
    rcases hds with rfl | rfl
    · exact Nat.le_refl _
    · obtain ⟨more, rfl⟩ := hp
      exact absurd rfl hrest
  | _ => exact hds.elim

theorem operatorEqual {kinds : Kind × Kind} (h : Kind.ofOperator? c = some kinds) :
    Cut (c :: '=' :: rest) ⟨.lexeme .operator, [c, '=']⟩ := by
  refine of_continues (.operatorEqual h) ⟨rest, rfl⟩ fun cls ds hds _ => ?_
  rw [Opening.of_operator h] at hds
  cases cls with
  | operator => rcases hds with rfl | rfl <;> simp
  | _ => exact hds.elim

theorem slash (hrest : rest.head? ≠ some '/') : Cut ('/' :: rest) ⟨.lexeme .slash, ['/']⟩ := by
  refine of_continues .slash List.nil_prefix fun cls ds hds hp => ?_
  cases cls with
  | slash =>
    obtain rfl : ds = [] := hds
    exact Nat.zero_le _
  | comment =>
    obtain ⟨body, rfl, -⟩ := hds
    obtain ⟨more, rfl⟩ := hp
    exact absurd rfl hrest
  | _ => exact hds.elim

theorem comment (h : '\n' ∉ body) (hrest : ∀ d ∈ rest.head?, d = '\n') :
    Cut ('/' :: '/' :: (body ++ rest)) ⟨.lexeme .comment, '/' :: '/' :: body⟩ := by
  refine of_continues (.comment h) ⟨rest, rfl⟩ fun cls ds hds hp => ?_
  cases cls with
  | slash =>
    obtain rfl : ds = [] := hds
    exact Nat.zero_le _
  | comment =>
    obtain ⟨body', rfl, h'⟩ := hds
    have hp' : body' <+: body ++ rest := (List.cons_prefix_cons.1 hp).2
    have := length_le_of_prefix_run (p := (· ≠ '\n')) (by grind) (by grind) (by grind) hp'
    simpa using this
  | _ => exact hds.elim

theorem blank (h : Character.isBlank c = true) : Cut (c :: rest) ⟨.lexeme .blank, [c]⟩ := by
  refine of_continues (.blank h) List.nil_prefix fun cls ds hds _ => ?_
  rw [Opening.of_blank h] at hds
  cases cls with
  | blank =>
    obtain rfl : ds = [] := hds
    exact Nat.zero_le _
  | _ => exact hds.elim

theorem newline : Cut ('\n' :: rest) ⟨.lexeme .newline, ['\n']⟩ := by
  refine of_continues .newline List.nil_prefix fun cls ds hds _ => ?_
  cases cls with
  | newline =>
    obtain rfl : ds = [] := hds
    exact Nat.zero_le _
  | _ => exact hds.elim

theorem string (h : '"' ∉ body) :
    Cut ('"' :: (body ++ '"' :: rest)) ⟨.lexeme .string, '"' :: (body ++ ['"'])⟩ := by
  refine of_continues (.string h) ⟨rest, by simp⟩ fun cls ds hds hp => ?_
  cases cls with
  | string =>
    obtain ⟨body', rfl, h'⟩ := hds
    obtain ⟨more, heq⟩ := hp
    rw [List.append_assoc] at heq
    obtain ⟨rfl, -⟩ := run_unique (p := (· ≠ '"')) (by grind) (by simp) (by grind) (by simp) heq
    exact Nat.le_refl _
  | _ => exact hds.elim

theorem integer (hc : Character.isDigit c = true) (h : ∀ d ∈ ds, Character.isDigit d)
    (hrest : ∀ d ∈ rest.head?, Character.isDigit d = false)
    (hpoint : ∀ d more, rest = '.' :: d :: more → Character.isDigit d = false) :
    Cut (c :: (ds ++ rest)) ⟨.lexeme .number, c :: ds⟩ := by
  refine of_continues (.integer hc h) ⟨rest, rfl⟩ fun cls ds' hds hp => ?_
  rw [Opening.of_digit hc] at hds
  cases cls with
  | number =>
    rcases hds with h' | ⟨digits, d, fraction, rfl, h', hd, hf⟩
    · exact length_le_of_prefix_run h hrest h' hp
    · -- The point would have to stand where the digits end.
      obtain ⟨more, heq⟩ := hp
      rw [List.append_assoc] at heq
      have htake := congrArg (List.takeWhile Character.isDigit) heq
      rw [takeWhile_append_stop h' (by rintro d ⟨⟩; rfl), takeWhile_append_stop h hrest] at htake
      subst htake
      have hd' := hpoint d _ (List.append_cancel_left heq).symm
      simp [hd] at hd'
  | _ => exact hds.elim

theorem decimal (hc : Character.isDigit c = true) (h : ∀ d ∈ ds, Character.isDigit d)
    (hd : Character.isDigit d = true) (hf : ∀ d ∈ fraction, Character.isDigit d)
    (hrest : ∀ d ∈ rest.head?, Character.isDigit d = false) :
    Cut (c :: (ds ++ '.' :: d :: (fraction ++ rest)))
      ⟨.lexeme .number, c :: (ds ++ '.' :: d :: fraction)⟩ := by
  refine of_continues (.decimal hc h hd hf) ⟨rest, by simp⟩ fun cls ds' hds hp => ?_
  rw [Opening.of_digit hc] at hds
  cases cls with
  | number =>
    rcases hds with h' | ⟨digits, d', fraction', rfl, h', hd', hf'⟩
    · have := length_le_of_prefix_run h (by rintro d ⟨⟩; rfl) h' hp
      simp
      omega
    · obtain ⟨more, heq⟩ := hp
      simp only [List.append_assoc, List.cons_append] at heq
      obtain ⟨rfl, hsame⟩ := run_unique h' (by rintro d ⟨⟩; rfl) h (by rintro d ⟨⟩; rfl) heq
      obtain ⟨rfl, htail⟩ := List.cons.inj (List.cons.inj hsame).2
      have := length_le_of_prefix_run hf hrest hf' ⟨more, htail⟩
      simpa using this
  | _ => exact hds.elim

theorem word (hc : Character.isLetter c = true) (h : ∀ d ∈ ds, Character.isWord d)
    (hrest : ∀ d ∈ rest.head?, Character.isWord d = false) :
    Cut (c :: (ds ++ rest)) ⟨.lexeme .word, c :: ds⟩ := by
  refine of_continues (.word hc h) ⟨rest, rfl⟩ fun cls ds' hds hp => ?_
  rw [Opening.of_letter hc] at hds
  cases cls with
  | word => exact length_le_of_prefix_run h hrest hds hp
  | _ => exact hds.elim

theorem unterminated_of_not_mem (h : '"' ∉ body) : Cut ('"' :: body) ⟨.unterminated, '"' :: body⟩ := by
  refine .unterminated (noLexeme_of_continues fun cls ds hds hp => ?_)
  cases cls with
  | string =>
    obtain ⟨body', rfl, -⟩ := hds
    exact h (hp.subset (by simp))
  | _ => exact hds.elim

theorem unexpected_of_nothing (h : Opening.of c = .nothing) : Cut (c :: rest) ⟨.unexpected, [c]⟩ := by
  refine .unexpected (noLexeme_of_continues fun cls ds hds _ => ?_) ?_
  · rw [h] at hds
    exact hds.elim
  · rintro rfl
    cases h

end Cut

end Segment

end LoxSyntax
