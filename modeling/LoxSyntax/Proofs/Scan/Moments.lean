import LoxSyntax.Proofs.Scan.MaximalMunch
import LoxSyntax.Proofs.Scan.Moves

/-! # The moments of a history

An operation adds a token as the last thing that it does, so the lexeme and the line of the token
can be read off the state after it (`Scan.AddsPiece`). A run is no single operation in this respect:
it goes on from round to round. `Scan.momentsAll` are all states through which a history takes a
scan, and each token of the last state is added in one of them (`Scan.Leads.exists_adds`). -/

namespace LoxSyntax.Scan

variable {s s' s'' m : Scan} {c : Char} {kind : Kind} {literal : Literal} {operation : Operation}
  {rest : List Char} {t : Token} {ms ms' : List Scan}

/-- The piece of the source from the start to the cursor. -/
def piece (s : Scan) : String := .ofList (s.source.extract s.start s.current)

theorem piece_eq (s : Scan) : s.piece = .ofList s.lexeme := by
  rw [piece, extract_start_current]

/-- At most one token is added, which is the piece up to the cursor, on the line of the cursor. -/
def AddsPiece (s s' : Scan) : Prop :=
  s'.tokens = s.tokens ∨
    ∃ kind literal, s'.tokens = s.tokens.push ⟨kind, s'.piece, literal, s'.line⟩

theorem addsPiece_addToken (h : m.tokens = s.tokens) : AddsPiece s (m.addToken kind literal) := by
  have hpiece : (m.addToken kind literal).piece = .ofList m.lexeme := piece_eq _
  refine .inr ⟨kind, literal, ?_⟩
  rw [hpiece, ← h]
  rfl

theorem tokens_skipNumber (s : Scan) : s.skipNumber.tokens = s.tokens := by
  simp only [skipNumber]
  split <;> rfl

theorem addsPiece_string (s : Scan) : AddsPiece s s.string := by
  simp only [Scan.string]
  split
  · exact .inl rfl
  · exact addsPiece_addToken rfl

theorem addsPiece_number (s : Scan) : AddsPiece s s.number.2 := by
  simp only [number]
  split
  · exact addsPiece_addToken (tokens_skipNumber s)
  · exact .inl (tokens_skipNumber s)

theorem addsPiece_scanOpened (opening : Opening) (s : Scan) :
    AddsPiece s (s.scanOpened opening).2 := by
  cases opening with
  | blank | newline | nothing => exact .inl rfl
  | punctuation | word => exact addsPiece_addToken rfl
  | operator =>
    simp only [scanOpened]
    split <;> exact addsPiece_addToken rfl
  | slash =>
    simp only [scanOpened]
    split
    · exact .inl rfl
    · exact addsPiece_addToken rfl
  | string => exact addsPiece_string s
  | number => exact addsPiece_number s

theorem addsPiece_scanToken (s : Scan) : AddsPiece s s.scanToken.2 := by
  cases hafter : s.after with
  | nil =>
    simp only [scanToken, hafter]
    exact .inl rfl
  | cons c rest =>
    rw [scanToken_of_cons hafter]
    exact addsPiece_scanOpened (.of c) (s.skip 1)

theorem addsPiece_perform (h : operation ≠ .run) (s : Scan) :
    AddsPiece s (perform operation s).2 := by
  cases operation with
  | isAtEnd | peek | peekNext | skipComment | mark => exact .inl rfl
  | advance =>
    simp only [perform, advance]
    split <;> exact .inl rfl
  | matchText text =>
    simp only [perform, matchText]
    split <;> exact .inl rfl
  | scanToken =>
    rw [perform, Prod.map_snd]
    exact addsPiece_scanToken s
  | string => exact addsPiece_string s
  | number =>
    rw [perform, Prod.map_snd]
    exact addsPiece_number s
  | word | addToken => exact addsPiece_addToken rfl
  | run => exact absurd rfl h

/-- One round of a run. -/
def round (s : Scan) : Scan := s.mark.scanToken.2

/-- The states after the rounds of a run, of which there are at most as many as characters left. -/
def rounds : (fuel : Nat) → Scan → List Scan
  | 0, _ => []
  | fuel + 1, s => if s.isAtEnd then [] else s.round :: rounds fuel s.round

/-- The states through which an operation takes the scan. A run goes on from round to round and
then adds the end token. -/
def moments (s : Scan) : Operation → List Scan
  | .run =>
    if s.finished then []
    else
      let begun := { s with finished := true }
      begun :: (rounds s.after.length begun ++ [s.run.2])
  | operation => [(perform operation s).2]

def momentsAll : List Operation → Scan → List Scan
  | [], _ => []
  | operation :: history, s => s.moments operation ++ momentsAll history (perform operation s).2

/-- From one state to the next the token is added: a piece of the source, or the end token by a run
that has come to the end of the source. -/
def Adds (s s' : Scan) (t : Token) : Prop :=
  s'.tokens = s.tokens.push t ∧
    ((∃ kind literal, t = ⟨kind, s'.piece, literal, s'.line⟩) ∨
      (s.finished = true ∧ s.isAtEnd = true ∧ s' = s.addEnd))

/-- The states lead from the first to the last. Each continues the one before it and adds at most
one token. -/
inductive Leads : Scan → List Scan → Scan → Prop
  | nil (s : Scan) : Leads s [] s
  | keep {s m s' : Scan} {ms : List Scan} :
      s.Continues m → m.tokens = s.tokens → Leads m ms s' → Leads s (m :: ms) s'
  | add {s m s' : Scan} {ms : List Scan} {t : Token} :
      s.Continues m → s.Adds m t → Leads m ms s' → Leads s (m :: ms) s'

theorem AddsPiece.leads (h : AddsPiece s m) (hm : Continues s m) (hrest : Leads m ms s') :
    Leads s (m :: ms) s' := by
  rcases h with hkeep | ⟨kind, literal, hadd⟩
  · exact .keep hm hkeep hrest
  · exact .add hm ⟨hadd, .inl ⟨kind, literal, rfl⟩⟩ hrest

theorem Leads.append (h : Leads s ms s') (h' : Leads s' ms' s'') : Leads s (ms ++ ms') s'' := by
  induction h with
  | nil => exact h'
  | keep hm hkeep _ ih => exact .keep hm hkeep (ih h')
  | add hm hadd _ ih => exact .add hm hadd (ih h')

theorem Leads.getLastD_eq (h : Leads s ms s') : ms.getLastD s = s' := by
  induction h with
  | nil => rfl
  | keep _ _ _ ih | add _ _ _ ih => rw [List.getLastD_cons, ih]

theorem Leads.continues (h : Leads s ms s') : ∀ m ∈ ms, Continues s m := by
  induction h with
  | nil => simp
  | keep hm _ _ ih | add hm _ _ ih =>
    exact List.forall_mem_cons.2 ⟨hm, fun m' hmem => hm.trans (ih m' hmem)⟩

theorem Leads.continues_last (h : Leads s ms s') : Continues s s' := by
  induction h with
  | nil => exact .refl _
  | keep hm _ _ ih | add hm _ _ ih => exact hm.trans ih

/-- Each token that the states add is added by one of them. -/
theorem Leads.exists_adds {i : Nat} (h : Leads s ms s') (ht : s'.tokens[i]? = some t)
    (hi : s.tokens.size ≤ i) :
    ∃ past m m' future,
      s :: ms = past ++ m :: m' :: future ∧ m.tokens.size = i ∧ m.Adds m' t := by
  induction h with
  | nil s =>
    rw [Array.getElem?_eq_none hi] at ht
    cases ht
  | @keep s m s' ms _ hkeep hrest ih =>
    obtain ⟨past, m₁, m₂, future, hms, hsize, hadds⟩ := ih ht (hkeep ▸ hi)
    exact ⟨s :: past, m₁, m₂, future, by rw [hms, List.cons_append], hsize, hadds⟩
  | @add s m s' ms t' _ hadd hrest ih =>
    rcases Nat.lt_or_eq_of_le hi with hlt | rfl
    · have hm : m.tokens.size ≤ i := by rw [hadd.1, Array.size_push]; exact hlt
      obtain ⟨past, m₁, m₂, future, hms, hsize, hadds⟩ := ih ht hm
      exact ⟨s :: past, m₁, m₂, future, by rw [hms, List.cons_append], hsize, hadds⟩
    · have hlast : m.tokens.toList[s.tokens.size]? = some t' := by simp [hadd.1]
      have ht' : s'.tokens.toList[s.tokens.size]? = some t' := by
        obtain ⟨more, hmore⟩ := hrest.continues_last.tokens
        rw [← hmore, List.getElem?_append_left (by simp [hadd.1])]
        exact hlast
      rw [Array.getElem?_toList, ht] at ht'
      cases ht'
      exact ⟨[], s, m, ms, rfl, rfl, hadd⟩

theorem scanRest_of_cons (h : s.after = c :: rest) : s.scanRest = s.round.scanRest := by
  obtain ⟨segment, -, hstep⟩ := absorbs_scanToken (s := s.mark) rfl h
  rw [scanRest_of_ok (by simp [h]) hstep, round, hstep]

theorem leads_rounds {fuel : Nat} (h : s.after.length ≤ fuel) :
    Leads s (rounds fuel s) s.scanRest.2 := by
  induction fuel generalizing s with
  | zero =>
    have hafter : s.after = [] := List.eq_nil_of_length_eq_zero (Nat.le_zero.1 h)
    rw [scanRest_of_nil hafter]
    exact .nil _
  | succ fuel ih =>
    cases hafter : s.after with
    | nil =>
      rw [scanRest_of_nil hafter, rounds, if_pos (by simp [isAtEnd, hafter])]
      exact .nil _
    | cons c rest =>
      have hlt : s.round.after.length < s.after.length :=
        scanToken_length_lt s.mark (by simp [hafter])
      have hpiece : AddsPiece s s.round := addsPiece_scanToken s.mark
      have hrest := ih (s := s.round) (by omega)
      rw [scanRest_of_cons hafter, rounds, if_neg (by simp [isAtEnd, hafter])]
      exact hpiece.leads (Move.mark.moves.trans (moves_scanToken s.mark)).continues hrest

theorem isAtEnd_of_scanRest (h : s.scanRest = (.ok (), s')) : s'.isAtEnd = true := by
  fun_induction scanRest s with
  | case1 s hafter =>
    cases h
    exact List.isEmpty_iff.2 hafter
  | case2 s _ _ _ _ ih => exact ih h
  | case3 => cases h

/-- A run that is the first one goes on to the end of the source and adds the end token. -/
theorem run_of_not_finished (hf : s.finished = false) :
    ∃ s', { s with finished := true }.scanRest = (.ok (), s') ∧
      s.run = (.ok s'.addEnd.tokens.toList, s'.addEnd) := by
  obtain ⟨segments, -, hrest⟩ := exists_scanRest_eq { s with finished := true }
  refine ⟨_, hrest, ?_⟩
  simp only [run, hf, Bool.false_eq_true, if_false, hrest]

theorem leads_run (hf : s.finished = false) : Leads s (s.moments .run) s.run.2 := by
  obtain ⟨s', hrest, hrun⟩ := run_of_not_finished hf
  let begun : Scan := { s with finished := true }
  have hrounds : Leads begun (rounds s.after.length begun) s' := by
    have h := leads_rounds (s := begun) (Nat.le_refl s.after.length)
    rwa [hrest] at h
  have hfinished : s'.finished = true := hrounds.continues_last.finished rfl
  have hend : Leads s' [s'.addEnd] s'.addEnd :=
    .add Move.addEnd.continues ⟨rfl, .inr ⟨hfinished, isAtEnd_of_scanRest hrest, rfl⟩⟩ (.nil _)
  rw [moments, hf, if_neg Bool.false_ne_true, hrun]
  exact .keep (continues_finish s) rfl (hrounds.append hend)

theorem leads_moments (operation : Operation) (s : Scan) :
    Leads s (s.moments operation) (perform operation s).2 := by
  by_cases h : operation = .run
  · subst h
    rw [perform_run_snd]
    cases hf : s.finished with
    | true =>
      rw [moments, if_pos hf, run_of_finished hf]
      exact .nil s
    | false => exact leads_run hf
  · have hmoments : s.moments operation = [(perform operation s).2] := by
      cases operation with
      | run => exact absurd rfl h
      | _ => rfl
    rw [hmoments]
    exact (addsPiece_perform h s).leads (continues_perform operation s) (.nil _)

theorem leads_momentsAll (history : List Operation) (s : Scan) :
    Leads s (momentsAll history s) (performAll history s) := by
  induction history generalizing s with
  | nil => exact .nil s
  | cons operation history ih => exact (leads_moments operation s).append (ih _)

end LoxSyntax.Scan
