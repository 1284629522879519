import LoxSyntax.Proofs.Grammar.Limit
import LoxSyntax.Proofs.Grammar.Relabelling

/-! # What a reader depends on

A reader depends on the kinds of the tokens that it takes and of the one behind them, and on nothing
else (`Reader.Natural`): on other tokens of these kinds it comes to the same tree over the other
tokens, or to the same failure at the same place. The steps of the machine go by kinds, and nothing
goes on past the place at which it halts (`Halts.length_le`), so two readings cannot halt apart. -/

namespace LoxSyntax

namespace Grammar

open Progress

variable {p q : Progress} {t u : Token} {ts us vs rest : List Token} {m n limit budget : Nat}
  {failure failure' : Failure} {rule : Rule} {reader : Reader} {e : Expr}

/-! ## Tokens of the same kinds -/

/-- The first `n` tokens and the one behind them are of the same kinds. -/
def SameKinds (n : Nat) (ts us : List Token) : Prop :=
  (us.take (n + 1)).map Token.kind = (ts.take (n + 1)).map Token.kind

namespace SameKinds

theorem of_map_eq (h : us.map Token.kind = ts.map Token.kind) (n : Nat) : SameKinds n ts us := by
  simp only [SameKinds, List.map_take, h]

theorem symm (h : SameKinds n ts us) : SameKinds n us ts := Eq.symm h

theorem mono (h : SameKinds n ts us) (hm : m ≤ n) : SameKinds m ts us := by
  have hkinds := congrArg (List.take (m + 1)) h
  rwa [← List.map_take, ← List.map_take, List.take_take, List.take_take,
    Nat.min_eq_left (Nat.succ_le_succ hm)] at hkinds

theorem map_take_eq (h : SameKinds n ts us) :
    (us.take n).map Token.kind = (ts.take n).map Token.kind := by
  have hkinds := congrArg (List.take n) h
  rwa [← List.map_take, ← List.map_take, List.take_take, List.take_take,
    Nat.min_eq_left (Nat.le_succ n)] at hkinds

theorem kind_next (h : SameKinds n ts us) : us[n]?.map Token.kind = ts[n]?.map Token.kind := by
  have hkinds := congrArg (·[n]?) h
  simpa using hkinds

theorem exists_append (h : SameKinds us.length (us ++ rest) ts) :
    ∃ us' rest', ts = us' ++ rest' ∧ us'.length = us.length ∧
      us'.map Token.kind = us.map Token.kind ∧
      rest'.head?.map Token.kind = rest.head?.map Token.kind := by
  have hkinds := h.map_take_eq
  rw [List.take_left] at hkinds
  have hlength := congrArg List.length hkinds
  rw [List.length_map, List.length_map] at hlength
  refine ⟨_, _, (List.take_append_drop us.length ts).symm, hlength, hkinds, ?_⟩
  have hnext := h.kind_next
  rwa [← List.head?_drop, ← List.head?_drop, List.drop_left] at hnext

end SameKinds

/-! ## The machine goes by kinds -/

theorem Progress.step_congr (h : u.kind = t.kind) : p.step u = p.step t := by
  simp only [step, Token.isSome_leaf?_iff, h]

theorem Progress.run_congr (h : us.map Token.kind = ts.map Token.kind) : p.run us = p.run ts := by
  induction us generalizing p ts with
  | nil => rw [List.map_eq_nil_iff.1 h.symm]
  | cons u us ih =>
    obtain ⟨t, ts, rfl, hkind, hkinds⟩ := List.map_eq_cons_iff.1 h.symm
    rw [run_cons, run_cons, step_congr hkind.symm]
    exact congrArg _ (funext fun q => ih hkinds.symm)

theorem Progress.Under.congr (h : p.Under limit ts) (hkinds : us.map Token.kind = ts.map Token.kind) :
    p.Under limit us := by
  rw [under_iff] at h ⊢
  intro k hk q hq
  have hlength := congrArg List.length hkinds
  rw [List.length_map, List.length_map] at hlength
  have htake : (us.take k).map Token.kind = (ts.take k).map Token.kind := by
    rw [List.map_take, List.map_take, hkinds]
  exact h k (hlength ▸ hk) q (run_congr htake ▸ hq)

theorem step_eq_none_congr {next next' : Option Token} (h : ∀ t ∈ next, q.step t = none)
    (hkind : next'.map Token.kind = next.map Token.kind) : ∀ t ∈ next', q.step t = none := by
  intro u hu
  obtain rfl := hu
  obtain ⟨t, rfl, ht⟩ := Option.map_eq_some_iff.1 hkind.symm
  rw [step_congr ht.symm]
  exact h t rfl

theorem Stuck.congr {next next' : Option Token} (h : Stuck q next failure)
    (hkind : next'.map Token.kind = next.map Token.kind) : Stuck q next' failure := by
  cases failure with
  | nestingTooDeep => exact h
  | operandMissing => exact ⟨h.1, step_eq_none_congr h.2 hkind⟩
  | parenthesisUnclosed => exact ⟨h.1, h.2.1, step_eq_none_congr h.2.2 hkind⟩
  | endMissing =>
    obtain ⟨hdue, hpending, t, rfl, hend, hstep⟩ := h
    obtain ⟨u, rfl, hu⟩ := Option.map_eq_some_iff.1 hkind
    refine ⟨hdue, hpending, u, rfl, ?_, (step_congr hu).trans hstep⟩
    rwa [Token.isEnd, hu]

theorem Blocked.congr {next next' : Option Token} (h : Blocked limit q next failure)
    (hkind : next'.map Token.kind = next.map Token.kind) : Blocked limit q next' failure := by
  cases h with
  | tooDeep hlt => exact .tooDeep hlt
  | stuck hle hstuck => exact .stuck hle (hstuck.congr hkind)

theorem Blocked.unique {next : Option Token} (h : Blocked limit q next failure)
    (h' : Blocked limit q next failure') : failure = failure' := by
  cases h with
  | tooDeep hlt =>
    cases h' with
    | tooDeep => rfl
    | stuck hle => exact absurd hle (Nat.not_le.2 hlt)
  | stuck hle hstuck =>
    cases h' with
    | tooDeep hlt => exact absurd hle (Nat.not_le.2 hlt)
    | stuck _ hstuck' => exact hstuck.unique hstuck'

namespace Halts

/-- Reading halts alike on other tokens of the same kinds. -/
theorem congr (h : Halts limit p ts failure n) (hkinds : SameKinds n ts us) :
    Halts limit p us failure n := by
  obtain ⟨vs, rest, q, rfl, rfl, hrun, hunder, hblocked⟩ := h
  obtain ⟨vs', rest', rfl, hlength, hvs, hrest⟩ := hkinds.exists_append
  exact ⟨vs', rest', q, rfl, hlength, (run_congr hvs).trans hrun, hunder.congr hvs,
    hblocked.congr hrest⟩

/-- Nothing goes on, within the limit, past the place at which reading halts. -/
theorem length_le (h : Halts limit p (us ++ rest) failure n) (hrun : p.run us = some q)
    (hus : p.Under limit us) : us.length ≤ n := by
  obtain ⟨vs, rest', r, heq, rfl, hvs, -, hblocked⟩ := h
  apply Nat.le_of_not_lt
  intro hlt
  -- The run of the longer list goes through the point at which the shorter one is blocked.
  have hprefix : vs <+: us ++ rest := ⟨rest', heq.symm⟩
  obtain ⟨more, rfl⟩ : vs <+: us :=
    List.prefix_of_prefix_length_le hprefix (List.prefix_append ..) (Nat.le_of_lt hlt)
  rw [List.append_assoc] at heq
  obtain rfl := List.append_cancel_left heq
  rw [run_append, hvs, Option.bind_some] at hrun
  have hunder := ((under_append hvs).1 hus).2
  cases more with
  | nil => simp at hlt
  | cons t more =>
    cases hblocked with
    | tooDeep hexceeded => exact absurd hunder.1 (Nat.not_le.2 hexceeded)
    | stuck _ hstuck =>
      rw [run_cons, hstuck.step_eq_none t rfl] at hrun
      cases hrun

/-- Reading halts at one place, for one reason. -/
theorem unique (h : Halts limit p ts failure n) (h' : Halts limit p ts failure' m) :
    failure = failure' ∧ n = m := by
  have hle : m ≤ n := by
    obtain ⟨vs, rest, r, rfl, rfl, hrun, hunder, -⟩ := h'
    exact h.length_le hrun hunder
  have hge : n ≤ m := by
    obtain ⟨us, rest, q, rfl, rfl, hrun, hunder, -⟩ := h
    exact h'.length_le hrun hunder
  obtain rfl := Nat.le_antisymm hge hle
  obtain ⟨us, rest, q, rfl, hlength, hrun, -, hblocked⟩ := h
  obtain ⟨vs, rest', r, heq, hlength', hrun', -, hblocked'⟩ := h'
  obtain ⟨rfl, rfl⟩ := List.append_inj heq (hlength.trans hlength'.symm)
  cases hrun.symm.trans hrun'
  exact ⟨hblocked.unique hblocked', rfl⟩

end Halts

/-! ## Readers -/

/-- The same outcome with other tokens in the places of those that were taken. -/
def Outcome.onTokens (o : Outcome) (tokens : List Token) : Outcome :=
  ⟨o.result.map (·.onTokens (tokens.take o.taken)), o.taken⟩

/-- On other tokens of the same kinds the reader comes to the same, with the other tokens in their
places. The kinds of the tokens that are taken and of the one behind them are all that counts. -/
def Reader.Natural (reader : Reader) : Prop :=
  ∀ ts us, SameKinds (reader ts).taken ts us → reader us = (reader ts).onTokens us

/-- A reader comes to the same where it finds the same tokens, as far as it takes them and one
further. -/
theorem Reader.Natural.eq_of_take_eq (H : reader.Natural)
    (h : us.take ((reader ts).taken + 1) = ts.take ((reader ts).taken + 1)) :
    reader us = reader ts := by
  have htaken : us.take (reader ts).taken = ts.take (reader ts).taken := by
    have htake := congrArg (List.take (reader ts).taken) h
    rwa [List.take_take, List.take_take, Nat.min_eq_left (Nat.le_succ _)] at htake
  calc
    reader us = (reader ts).onTokens us := H ts us (congrArg (List.map Token.kind) h)
    _ = (reader ts).onTokens ts := by simp only [Outcome.onTokens, htaken]
    _ = reader ts := (H ts ts rfl).symm

/-- The reader accepts what the rule derives, within the budget and where the kind of the next token
lets it end, and fails where reading halts. -/
structure Reader.Decides (reader : Reader) (rule : Rule) (budget : Nat) (ends : Option Kind → Prop) :
    Prop where
  accepts : ∀ {ts e n}, reader ts = .accept e n ↔
    ∃ us rest, ts = us ++ rest ∧ us.length = n ∧ Derives rule us e ∧ e.nesting ≤ budget ∧
      ends (rest.head?.map Token.kind)
  halts : ∀ {ts failure n}, reader ts = .fail failure n → Halts budget start ts failure n

namespace Reader.Decides

variable {ends : Option Kind → Prop}

theorem accept_congr (H : reader.Decides rule budget ends) (h : reader ts = .accept e n)
    (hkinds : SameKinds n ts us) : reader us = .accept (e.onTokens (us.take n)) n := by
  obtain ⟨vs, rest, rfl, rfl, hd, hn, hends⟩ := H.accepts.1 h
  obtain ⟨vs', rest', rfl, hlength, hvs, hrest⟩ := hkinds.exists_append
  rw [← hlength, List.take_left]
  have hd' := hd.onTokens hvs []
  rw [List.append_nil] at hd'
  exact H.accepts.2 ⟨vs', rest', rfl, rfl, hd', e.nesting_onTokens vs' ▸ hn, hrest ▸ hends⟩

theorem fail_congr (H : reader.Decides rule budget ends) (h : reader ts = .fail failure n)
    (hkinds : SameKinds n ts us) : reader us = .fail failure n := by
  have hhalts := (H.halts h).congr hkinds
  rcases (reader us).accept_or_fail with ⟨e, m, ho⟩ | ⟨failure', m, ho⟩
  · -- What is accepted ends before the reading halts, so it would be accepted on both lists.
    obtain ⟨vs, rest, rfl, rfl, hd, hn, -⟩ := H.accepts.1 ho
    have hunder : start.Under budget vs :=
      under_of_derives hd rfl (Nat.add_le_of_le_sub' (Nat.zero_le _) hn)
    have hle := hhalts.length_le (run_of_derives hd []) hunder
    cases h.symm.trans (H.accept_congr ho (hkinds.symm.mono hle))
  · obtain ⟨rfl, rfl⟩ := hhalts.unique (H.halts ho)
    exact ho

theorem natural (H : reader.Decides rule budget ends) : reader.Natural := by
  intro ts us hkinds
  rcases (reader ts).accept_or_fail with ⟨e, n, ho⟩ | ⟨failure, n, ho⟩
  · rw [ho] at hkinds ⊢
    exact H.accept_congr ho hkinds
  · rw [ho] at hkinds ⊢
    exact H.fail_congr ho hkinds

end Reader.Decides

/-! ## All rules -/

theorem Reader.Exact.decides (H : reader.Exact rule budget)
    (hblocks : ∀ tokens, reader.Blocks budget [] tokens) :
    reader.Decides rule budget (fun next => ∀ kind ∈ next, kind ∉ rule.chained) where
  accepts := by
    intro ts e n
    constructor
    · intro h
      obtain ⟨us, rest, rfl, rfl, hd, hn, hs⟩ := H.sound h
      exact ⟨us, rest, rfl, rfl, hd, hn, by simpa [Stops] using hs⟩
    · rintro ⟨us, rest, rfl, rfl, hd, hn, hs⟩
      exact H.complete hd hn (by simpa [Stops] using hs)
  halts h := by
    have hweight : weight ⟨true, []⟩ + budget = budget := Nat.zero_add budget
    exact hweight ▸ hblocks _ h

theorem natural_unary (budget : Nat) : Reader.Natural (unary budget) :=
  ((Rule.exact_apply .unary budget).decides (unary_blocks budget [])).natural

/-- A primary expression does not begin with a unary operator, though the machine would go on there;
before any other token it is a unary expression. -/
theorem natural_primary (budget : Nat) : Reader.Natural (primary budget) := by
  intro ts us hkinds
  have hhead := (hkinds.mono (Nat.zero_le _)).kind_next
  rw [← List.head?_eq_getElem?, ← List.head?_eq_getElem?] at hhead
  by_cases ht : ∀ t ∈ ts.head?, t.kind ∉ Rule.unaryOperators
  · have hu : ∀ u ∈ us.head?, u.kind ∉ Rule.unaryOperators := by
      intro u hu
      rw [Option.mem_def.1 hu] at hhead
      obtain ⟨t, hts, hkind⟩ := Option.map_eq_some_iff.1 hhead.symm
      exact hkind ▸ ht t hts
    rw [← unary_of_not_mem ht] at hkinds ⊢
    rw [← unary_of_not_mem hu]
    exact natural_unary budget ts us hkinds
  · obtain ⟨t, ts, rfl, hop⟩ := exists_unary_cons ht
    obtain ⟨u, hu, hkind⟩ := Option.map_eq_some_iff.1 hhead
    obtain ⟨us, rfl⟩ := List.head?_eq_some_iff.1 hu
    rw [primary_of_mem_unaryOperators hop, primary_of_mem_unaryOperators (hkind ▸ hop)]
    rfl

end Grammar

open Grammar in
/-- What a rule comes to depends on the kinds of the tokens that it takes and of the next one. -/
theorem Rule.natural_apply (rule : Rule) (budget : Nat) : (rule.apply budget).Natural := by
  by_cases h : rule = .primary
  · subst h
    exact natural_primary budget
  · exact ((rule.exact_apply budget).decides (blocks_apply rule h budget)).natural

namespace Grammar

theorem natural_readAll (budget : Nat) : Reader.Natural (readAll budget) := by
  have hdecides : Reader.Decides (readAll budget) .expression budget
      (fun next => ∀ kind ∈ next, kind = .eof) :=
    { accepts := by
        intro ts e n
        rw [readAll_eq_accept_iff]
        simp [Token.isEnd]
      halts := readAll_blocked }
  exact hdecides.natural

end Grammar

end LoxSyntax
