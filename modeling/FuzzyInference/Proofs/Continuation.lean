import FuzzyInference.Proofs.Alignment

/-!
# Statements side by side

* `Correspondence.matches_readDefinition`: definitions, as terms and fuzzy sets before;
* `Correspondence.SameAttempt`: what came of corresponding statements;
* `Correspondence.resumes_readStatement`: one statement, and where the next one starts;
* `Correspondence.readStatements_aligned`: all statements of the first source, and then what stands
  behind the second one.
-/

namespace FuzzyInference

namespace Correspondence

variable {R : Correspondence} {c d : Cursor} {α : Type} [Scalar α]

/-! ## Definitions -/

theorem matches_readTerm (h : R.Aligned c d) :
    R.Matches R.Sealed R.Sealed Eq (readTerm .standard c : Reply c (Term α))
      (readTerm .standard d) := by
  unfold readTerm
  refine .bind (matches_expect h (by decide) (by decide) nofun) fun _ _ _ _ h => ?_
  refine .bind (matches_expect h (by decide) (by decide) nofun) fun t u _ ⟨name, ht⟩ h => ?_
  refine .bind (matches_readFuzzySet h) fun m _ _ same h => ?_
  subst same
  rw [← name.text_eq ht]
  exact matches_pure h _

/-- Terms match from a `TERM` on if those behind a comma do. -/
theorem matches_readTerms_termWord (h : R.Aligned c d) (hk : c.peekKind = some .termWord)
    (behind : ∀ c' d' : Cursor, c'.Follows c → c'.peekKind = some .comma →
      R.Aligned c'.advance d'.advance →
      R.Matches R.Sealed R.Sealed Eq
        (readTerms .standard c'.advance : Reply c'.advance (List (Term α)))
        (readTerms .standard d'.advance)) :
    R.Matches R.Sealed R.Sealed Eq (readTerms .standard c : Reply c (List (Term α)))
      (readTerms .standard d) := by
  rw [readTerms_termWord hk, readTerms_termWord ((h.peekKind_iff (by decide)).2 hk)]
  refine .andThen (matches_readTerm h) fun t _ _ same h => ?_
  subst same
  have later := (readTerm .standard c : Reply c (Term α)).forward
  by_cases hc : (readTerm .standard c : Reply c (Term α)).next.peekKind = some .comma
  · rw [if_pos hc, if_pos ((h.peekKind_iff (by decide)).2 hc)]
    have others := behind _ _ later hc (h.advance hc)
    exact (others.map fun _ _ same => congrArg (t :: ·) same).since fun hs =>
      hs.advance hc (by decide)
  · rw [if_neg hc, if_neg (mt (h.peekKind_iff (by decide)).1 hc)]
    by_cases hp : (readTerm .standard c : Reply c (Term α)).next.peekKind = some .closeParen
    · rw [if_pos hp, if_pos ((h.peekKind_iff (by decide)).2 hp)]
      exact .of_ok h rfl id
    · rw [if_neg hp, if_neg (mt (h.peekKind_iff (by decide)).1 hp)]
      exact .of_error h (fun hs => ⟨.refl _, h.position hs⟩) nofun

omit [Scalar α] in
/-- Where the first source is at its end, the second one may go on with a statement, which does not
belong in a definition either. -/
theorem matches_readTerms_stray (h : R.Aligned c d) (noParen : c.peekKind ≠ some .closeParen)
    (noTerm : c.peekKind ≠ some .termWord) {table : FunctionTable α} :
    R.Matches R.Sealed R.Sealed Eq (readTerms table c) (readTerms table d) := by
  rw [readTerms_stray noParen noTerm, readTerms_stray (mt (h.peekKind_iff (by decide)).1 noParen)
    (mt (h.peekKind_iff (by decide)).1 noTerm)]
  refine .of_error h (fun hs => ?_) ?_
  · rw [h.peekKind_eq hs]
    exact ⟨.refl _, h.position hs⟩
  · split <;> nofun

theorem matches_readTerms (h : R.Aligned c d) :
    R.Matches R.Sealed R.Sealed Eq (readTerms .standard c : Reply c (List (Term α)))
      (readTerms .standard d) := by
  induction c using readTerms.induct generalizing d with
  | case1 c hk =>
    rw [readTerms_closeParen hk, readTerms_closeParen ((h.peekKind_iff (by decide)).2 hk)]
    exact .of_ok h rfl id
  | case2 c hk ih => exact matches_readTerms_termWord h hk fun c' _ later hc => ih c' later hc
  | case3 c kind noParen noTerm hk =>
    refine matches_readTerms_stray h ?_ ?_
    · intro he
      exact noParen (Option.some.inj (hk.symm.trans he))
    · intro he
      exact noTerm (Option.some.inj (hk.symm.trans he))
  | case4 c hk => exact matches_readTerms_stray h (by rw [hk]; nofun) (by rw [hk]; nofun)

omit [Scalar α] in
/-- The ends of two definitions match: the semicolon, and the check that no two terms share a name.
-/
theorem matches_finished {p q : Position} (h : R.Aligned c d) (places : R.place p q)
    (made : Except DuplicateTerm (Variable α)) :
    R.Matches R.Sealed (fun _ => True) Eq
      ((do
        let _ ← Reading.expect .semicolon .missingDefinitionEnd
        match made with
        | .ok v => pure v
        | .error duplicate => Reading.fail ⟨.invalidDefinition duplicate, p⟩ :
          Reading (Variable α)) c)
      ((do
        let _ ← Reading.expect .semicolon .missingDefinitionEnd
        match made with
        | .ok v => pure v
        | .error duplicate => Reading.fail ⟨.invalidDefinition duplicate, q⟩ :
          Reading (Variable α)) d) := by
  refine .bind (matches_expect_semicolon h nofun) fun _ _ _ _ h => ?_
  cases made with
  | ok v => exact matches_pure h v
  | error duplicate => exact .of_error h (fun _ => ⟨.refl _, places⟩) nofun

theorem matches_readDefinition {p q : Position} (h : R.Aligned c d) (places : R.place p q) :
    R.Matches R.Sealed (fun _ => True) Eq (readDefinition .standard p c : Reply c (Variable α))
      (readDefinition .standard q d) := by
  unfold readDefinition
  refine .bind (matches_expect h (by decide) (by decide) nofun) fun t u _ ⟨name, ht⟩ h => ?_
  refine .bind (matches_expect h (by decide) (by decide) nofun) fun _ _ _ _ h => ?_
  refine .bind (matches_readTerms h) fun terms _ _ same h => ?_
  subst same
  refine .bind (matches_expect h (by decide) (by decide) nofun) fun _ _ _ _ h => ?_
  rw [← name.text_eq ht]
  exact matches_finished h places _

/-! ## Between the statements -/

theorem skipStatement_further : skipStatement R.further = R.further := by
  cases hf : R.further with
  | nil => rfl
  | cons t ts =>
    have opens : t.kind.OpensStatement := R.starts (by rw [hf]; rfl)
    rcases opens with hk | hk <;> simp only [skipStatement, hk]

theorem skipStatement_append {ts us : List Token} (tokens : List.Forall₂ R.Alike ts us) :
    ∃ vs, List.Forall₂ R.Alike (skipStatement ts) vs ∧
      skipStatement (us ++ R.further) = vs ++ R.further := by
  induction tokens with
  | nil => exact ⟨[], .nil, skipStatement_further⟩
  | @cons t u ts us first others ih =>
    rw [List.cons_append, skipStatement, skipStatement, ← first.kind_eq]
    split
    · exact ⟨us, others, rfl⟩
    · exact ⟨u :: us, .cons first others, rfl⟩
    · exact ⟨u :: us, .cons first others, rfl⟩
    · exact ih

theorem Aligned.recover (h : R.Aligned c d) : R.Aligned c.recover d.recover := by
  obtain ⟨us, tokens, hd⟩ := h.rest
  obtain ⟨vs, left, skipped⟩ := skipStatement_append tokens
  refine ⟨⟨vs, left, ?_⟩, h.endPosition⟩
  rw [Cursor.recover, hd, skipped]

variable (R) in
/-- What is left of the first source is sealed, or nothing is left of it. -/
def Settled (c : Cursor) : Prop :=
  R.further = [] ∨ ∀ t ∈ c.rest.getLast?, t.kind = .semicolon

theorem Settled.of_suffix (h : R.Settled c) (left : d.rest <:+ c.rest) : R.Settled d := by
  refine h.imp id fun last t ht => last t ?_
  obtain ⟨before, hc⟩ := left
  rw [← hc]
  exact List.mem_getLast?_append_of_mem_getLast? ht

theorem Settled.sealed {t : Token} {ts : List Token} (h : R.Settled c) (hc : c.rest = t :: ts)
    (ht : t.kind ≠ .semicolon) : R.Sealed c.advance := by
  rw [Cursor.advance_eq hc]
  refine Sealed.tail (h.imp id fun last => ?_) hc ht
  have hl := List.getLast?_eq_getLast_of_ne_nil (l := c.rest) (by simp [hc])
  rw [hl, Option.map_some, last _ hl]

/-! ## Attempts -/

/-- Corresponding statements came out the same. Where `J` holds, their errors did too. -/
structure SameAttempt (R : Correspondence) (J : Prop) (a b : Attempt α) : Prop where
  start : R.place a.start b.start
  statement : a.statement = b.statement
  error : J → Option.Rel R.SameError a.error b.error

/-- After the attempts `a` and `b`, reading goes on at the cursors `c` and `d`. -/
inductive Resumes (R : Correspondence) (J : Prop) (a b : Attempt α) (c d : Cursor) : Prop
  | aligned (same : R.SameAttempt J a b)
      (plain : R.further = [] ∨ ∀ e ∈ a.error, e.problem ≠ .missingFunction)
      (next : R.Aligned c d)
  | swallowed (same : R.SameAttempt J a b) (unsealed : ¬ J)
      (awaiting : ∃ e ∈ a.error, e.problem = .missingFunction) (ended : c.rest = [])
      (next : d.rest = skipStatement R.further.tail)

omit [Scalar α] in
/-- Readings that match both have a value, or both an error, behind which reading goes on alike. -/
theorem Matches.resumes {β γ : Type} {J : Prop} {K : Cursor → Prop} {S : β → γ → Prop}
    {r : Reply c β} {s : Reply d γ} {p q : Position} (h : R.Matches R.Sealed K S r s)
    (places : R.place p q) (settled : J → R.Sealed c) :
    (∃ v w, r.result = .ok v ∧ s.result = .ok w ∧ S v w ∧ R.Aligned r.next s.next ∧
        (J → K r.next)) ∨
      ∃ e f, r.result = .error e ∧ s.result = .error f ∧
        R.Resumes (α := α) J ⟨p, none, some e⟩ ⟨q, none, some f⟩ r.next.recover s.next.recover := by
  cases h with
  | @ok v w left right value next keeps =>
    exact .inl ⟨v, w, left, right, value, next, fun hj => keeps (settled hj)⟩
  | @error e f left right same plain next =>
    refine .inr ⟨e, f, left, right, .aligned ⟨places, rfl, fun hj => ?_⟩ ?_ next.recover⟩
    · exact .some (same (settled hj))
    · exact plain.imp id fun ne e he => Option.some.inj he ▸ ne
  | @swallowed e f left right awaiting unsealed none next =>
    refine .inr ⟨e, f, left, right, .swallowed ⟨places, rfl, fun hj => ?_⟩ ?_ ?_ ?_ ?_⟩
    · exact absurd (settled hj) unsealed
    · exact fun hj => unsealed (settled hj)
    · exact ⟨e, rfl, awaiting⟩
    · rw [Cursor.recover, none, skipStatement]
    · rw [Cursor.recover, next]

omit [Scalar α] in
theorem resumes_finishDefinition {J : Prop} {K : Cursor → Prop} {r : Reply c (Variable α)}
    {s : Reply d (Variable α)} {p q : Position} (h : R.Matches R.Sealed K Eq r s)
    (places : R.place p q) (settled : J → R.Sealed c) :
    R.Resumes J (finishDefinition p r).1 (finishDefinition q s).1 (finishDefinition p r).2.1
      (finishDefinition q s).2.1 := by
  unfold finishDefinition
  rcases h.resumes places settled with
    ⟨v, _, left, right, rfl, next, -⟩ | ⟨e, f, left, right, failed⟩
  · simp only [left, right]
    exact .aligned ⟨places, rfl, fun _ => .none⟩ (.inr nofun) next
  · simp only [left, right]
    exact failed

omit [Scalar α] in
theorem resumes_finishRule {J : Prop} {r : Reply c Rule} {s : Reply d Rule} {p q : Position}
    (h : R.Matches R.Sealed R.Sealed Eq r s) (places : R.place p q) (settled : J → R.Sealed c) :
    R.Resumes (α := α) J (finishRule p r).1 (finishRule q s).1 (finishRule (α := α) p r).2.1
      (finishRule (α := α) q s).2.1 := by
  unfold finishRule
  rcases h.resumes places settled with
    ⟨v, _, left, right, rfl, next, keeps⟩ | ⟨e, f, left, right, failed⟩
  · simp only [left, right]
    by_cases hk : r.next.peekKind = some .semicolon
    · rw [if_pos hk, if_pos ((next.peekKind_iff (by decide)).2 hk)]
      exact .aligned ⟨places, rfl, fun _ => .none⟩ (.inr nofun) (next.advance hk)
    · rw [if_neg hk, if_neg (mt (next.peekKind_iff (by decide)).1 hk)]
      refine .aligned ⟨places, rfl, fun hj => .some ⟨.refl _, ?_⟩⟩ (.inr ?_) next.recover
      · exact next.position (keeps hj)
      · rintro e ⟨⟩ ⟨⟩
  · simp only [left, right]
    exact failed

theorem resumes_readStatement {t u : Token} {ts : List Token} (hc : c.rest = t :: ts)
    (first : R.Alike t u) (h : R.Aligned c.advance d.advance) :
    R.Resumes (α := α) (R.Settled c) (readStatement .standard t c.advance).1
      (readStatement .standard u d.advance).1 (readStatement (α := α) .standard t c.advance).2.1
      (readStatement (α := α) .standard u d.advance).2.1 := by
  have hk := first.kind_eq
  by_cases define : t.kind = .defineWord
  · rw [readStatement_defineWord define, readStatement_defineWord (hk ▸ define)]
    refine resumes_finishDefinition (matches_readDefinition h first.place) first.place ?_
    exact fun settled => settled.sealed hc (by simp [define])
  · by_cases hi : t.kind = .ifWord
    · rw [readStatement_ifWord hi, readStatement_ifWord (hk ▸ hi)]
      refine resumes_finishRule (matches_readRule h) first.place ?_
      exact fun settled => settled.sealed hc (by simp [hi])
    · rw [readStatement_other define hi, readStatement_other (hk ▸ define) (hk ▸ hi), ← hk]
      refine .aligned ⟨first.place, rfl, fun _ => .some ⟨.statement first.word, first.place⟩⟩
        (.inr ?_) ?_
      · rintro e ⟨⟩ ⟨⟩
      · split
        · exact h
        · exact h.recover

/-! ## All statements -/

omit [Scalar α] in
theorem SameAttempt.mono {J K : Prop} {a b : Attempt α} (h : R.SameAttempt J a b) (weaker : K → J) :
    R.SameAttempt K a b :=
  ⟨h.start, h.statement, fun hk => h.error (weaker hk)⟩

/-- A statement broke off where the name of a function should be. -/
def AwaitsFunction (attempts : List (Attempt α)) : Prop :=
  ∃ e ∈ attempts.filterMap (·.error), e.problem = .missingFunction

omit [Scalar α] in
theorem awaitsFunction_cons_iff {a : Attempt α} {attempts : List (Attempt α)} :
    AwaitsFunction (a :: attempts) ↔
      (∃ e ∈ a.error, e.problem = .missingFunction) ∨ AwaitsFunction attempts := by
  unfold AwaitsFunction
  cases he : a.error with
  | none => simp [he]
  | some e => simp [he]

/-- After the attempts of the first source, the second one is left at the cursor `d`. -/
inductive LeavesOff (R : Correspondence) (J : Prop) (attempts : List (Attempt α)) (d : Cursor) :
    Prop
  | further (plain : R.further = [] ∨ ¬ AwaitsFunction attempts) (rest : d.rest = R.further)
  | swallowed (unsettled : ¬ J) (awaiting : AwaitsFunction attempts)
      (rest : d.rest = skipStatement R.further.tail)

omit [Scalar α] in
theorem LeavesOff.rest_eq {J : Prop} {attempts : List (Attempt α)} (h : R.LeavesOff J attempts d)
    (hj : J) : d.rest = R.further := by
  cases h with
  | further _ rest => exact rest
  | swallowed unsettled => exact absurd hj unsettled

omit [Scalar α] in
theorem LeavesOff.cons {J K : Prop} {a : Attempt α} {attempts : List (Attempt α)}
    (h : R.LeavesOff J attempts d) (weaker : K → J)
    (plain : R.further = [] ∨ ∀ e ∈ a.error, e.problem ≠ .missingFunction) :
    R.LeavesOff K (a :: attempts) d := by
  cases h with
  | further ended rest =>
    refine .further ?_ rest
    rcases ended with ended | ended
    · exact .inl ended
    · refine plain.imp id fun plain awaiting => ?_
      rcases awaitsFunction_cons_iff.1 awaiting with ⟨e, he, missing⟩ | awaiting
      · exact plain e he missing
      · exact ended awaiting
  | swallowed unsettled awaiting rest =>
    refine .swallowed (fun hk => unsettled (weaker hk)) ?_ rest
    exact awaitsFunction_cons_iff.2 (.inr awaiting)

/-- The second source is read as the first one is, and then what stands behind it. -/
theorem readStatements_aligned (h : R.Aligned c d) :
    ∃ bs e, (readStatements .standard d).1 = bs ++ (readStatements .standard e).1 ∧
      List.Forall₂ (R.SameAttempt (R.Settled c))
        (readStatements (α := α) .standard c).1 bs ∧
      R.LeavesOff (R.Settled c) (readStatements (α := α) .standard c).1 e ∧
      e.endPosition = d.endPosition := by
  -- Every statement uses up a token of the first source, so induct on how many are left.
  induction hl : c.rest.length using Nat.strongRecOn generalizing c d with
  | ind n ih =>
    rcases h.cases with ⟨hc, hd⟩ | ⟨t, ts, u, us, hc, hd, first, next⟩
    · rw [readStatements_nil hc]
      refine ⟨[], d, rfl, .nil, .further (.inr ?_) hd, rfl⟩
      rintro ⟨e, ⟨⟩, -⟩
    · rw [← Cursor.advance_eq hc, ← Cursor.advance_eq hd] at next
      rw [readStatements_cons hc, readStatements_cons hd]
      have later := (readStatement (α := α) .standard t c.advance).2.2
      have later' := (readStatement (α := α) .standard u d.advance).2.2
      have settled (hs : R.Settled c) := hs.of_suffix (later.rest.trans (List.tail_suffix _))
      cases resumes_readStatement (α := α) hc first next with
      | aligned same plain next =>
        have shorter := later.length_lt (by simp [hc])
        obtain ⟨bs, e, read, attempts, left, ends⟩ := ih _ (hl ▸ shorter) next rfl
        refine ⟨_ :: bs, e, ?_, .cons same ?_, left.cons settled plain, ?_⟩
        · rw [read, List.cons_append]
        · exact attempts.imp fun _ _ same => same.mono settled
        · exact ends.trans later'.endPosition
      | swallowed same unsealed awaiting ended rest =>
        -- The first source is at its end, and this statement was its last one.
        rw [readStatements_nil ended]
        refine ⟨[_], _, rfl, .cons same .nil, .swallowed unsealed ?_ rest, later'.endPosition⟩
        exact awaitsFunction_cons_iff.2 (.inl awaiting)

end Correspondence

end FuzzyInference
