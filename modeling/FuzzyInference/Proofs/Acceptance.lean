import FuzzyInference.Proofs.Attempts
import FuzzyInference.Proofs.Recognition
import Mathlib.Tactic.SplitIfs

/-!
# Which sources are accepted

* `yields_readTerms_iff`, `yields_readDefinition_iff`, `yields_readRule_iff`: statements are read
  as the grammar derives them;
* `readStatement_accepts_iff`: which statements leave no error;
* `parseTokens_accepts_iff`: which sources leave no error, and what is read from them.
-/

namespace FuzzyInference

open Grammar

/-! ## Definitions and rules -/

variable {α : Type}

/-- Behind `TERM` one term is read, and after a comma the others. -/
theorem yields_readTerms_termWord {table : FunctionTable α} {c : Cursor}
    (hk : c.peekKind = some .termWord) {ts : List (Term α)} {rest : List Token} :
    (readTerms table c).Yields ts rest ↔
      ∃ t, (readTerm table c).Yields t (readTerm table c).next.rest ∧
        (((readTerm table c).next.peekKind = some .comma ∧ ∃ us,
            (readTerms table (readTerm table c).next.advance).Yields us rest ∧ ts = t :: us) ∨
          ((readTerm table c).next.peekKind = some .closeParen ∧ ts = [t] ∧
            (readTerm table c).next.rest = rest)) := by
  rw [readTerms_termWord hk, Reply.yields_andThen_iff]
  refine exists_congr fun t => and_congr_right fun _ => ?_
  split_ifs with hc hp
  · simp [hc, eq_comm]
  · simp [hp, @eq_comm _ ts]
  · simp [hc, hp]

variable [Scalar α]

theorem yields_readTerm_iff {c : Cursor} {t : Term α} {rest : List Token} :
    (readTerm .standard c).Yields t rest ↔ Takes DerivesTerm c.rest t rest := by
  unfold readTerm
  simp only [Reading.yields_expect_bind_iff]
  constructor
  · rintro ⟨mark, ts, hr, hm, name, us, rfl, hn, h⟩
    obtain ⟨m, hy, h⟩ := Reading.yields_bind_iff.1 h
    obtain ⟨rfl, rfl⟩ := Reading.yields_pure_iff.1 h
    obtain ⟨used, hu, hd⟩ := yields_readFuzzySet_iff.1 hy
    exact ⟨mark :: name :: used, by rw [hr]; simpa using hu, .mk hm hn hd⟩
  · rintro ⟨used, hu, h⟩
    generalize hw : words used = ws at h
    cases h with
    | @mk _ _ ws m hm hn fuzzySet =>
      obtain ⟨mark, _, rfl, rfl, hs⟩ := words_eq_cons hw
      obtain ⟨name, us, rfl, rfl, rfl⟩ := words_eq_cons hs
      refine ⟨mark, name :: (us ++ rest), hu, hm, name, us ++ rest, rfl, hn, ?_⟩
      have hy : (readFuzzySet .standard { c with rest := us ++ rest }).Yields m rest :=
        yields_readFuzzySet_iff.2 ⟨us, rfl, fuzzySet⟩
      obtain ⟨hv, hn⟩ := hy
      exact Reading.yields_bind_iff.2 ⟨m, ⟨hv, rfl⟩, Reading.yields_pure_iff.2 ⟨rfl, hn⟩⟩

theorem Grammar.DerivesTerm.exists_mark {ws : List String} {t : Term α} (h : DerivesTerm ws t) :
    ∃ mark us, ws = mark :: us ∧ TokenKind.ofText mark = .termWord := by
  cases h with
  | mk hm => exact ⟨_, _, rfl, hm⟩

theorem nextKind_of_takes_term {tokens rest : List Token} {t : Term α}
    (h : Takes DerivesTerm tokens t rest) : nextKind tokens = some .termWord := by
  obtain ⟨used, rfl, h⟩ := h
  obtain ⟨w, us, hw, hm⟩ := h.exists_mark
  obtain ⟨mark, _, rfl, rfl, -⟩ := words_eq_cons hw
  exact congrArg some hm

/-- Terms taken off some tokens are none, one, or one with a comma and others behind it. -/
theorem takes_terms_iff {tokens rest : List Token} {ts : List (Term α)} :
    Takes DerivesTerms tokens ts rest ↔
      (ts = [] ∧ tokens = rest) ∨ ∃ t, (ts = [t] ∧ Takes DerivesTerm tokens t rest) ∨
        ∃ comma vs us, ts = t :: us ∧ Takes DerivesTerm tokens t (comma :: vs) ∧
          comma.kind = .comma ∧ Takes DerivesTerms vs us rest := by
  constructor
  · rintro ⟨used, hu, h⟩
    generalize hw : words used = ws at h
    cases h with
    | nil =>
      obtain rfl := List.map_eq_nil_iff.1 hw
      exact .inl ⟨rfl, hu⟩
    | last term => exact .inr ⟨_, .inl ⟨rfl, used, hu, hw ▸ term⟩⟩
    | cons term hc others =>
      obtain ⟨xs, _, rfl, rfl, hs⟩ := words_eq_append hw
      obtain ⟨comma, ys, rfl, rfl, rfl⟩ := words_eq_cons hs
      exact .inr ⟨_, .inr ⟨comma, ys ++ rest, _, rfl, ⟨xs, by simpa using hu, term⟩, hc,
        ys, rfl, others⟩⟩
  · rintro (⟨rfl, rfl⟩ | ⟨t, ⟨rfl, used, hu, term⟩ | ⟨comma, _, us, rfl, ⟨used, hu, term⟩, hc,
      ys, rfl, others⟩⟩)
    · exact ⟨[], rfl, .nil⟩
    · exact ⟨used, hu, .last term⟩
    · exact ⟨used ++ comma :: ys, by simpa using hu, by simpa using .cons term hc others⟩

theorem nil_or_nextKind_of_takes_terms {tokens rest : List Token} {ts : List (Term α)}
    (h : Takes DerivesTerms tokens ts rest) :
    (ts = [] ∧ tokens = rest) ∨ nextKind tokens = some .termWord := by
  rcases takes_terms_iff.1 h with empty | ⟨t, ⟨-, term⟩ | ⟨_, _, _, -, term, -⟩⟩
  · exact .inl empty
  all_goals exact .inr (nextKind_of_takes_term term)

variable (α) in
/-- Read at this cursor, terms are those of the grammar, in front of a closing parenthesis. -/
def RecognizesTerms (c : Cursor) : Prop :=
  ∀ (ts : List (Term α)) rest, (readTerms .standard c).Yields ts rest ↔
    Takes DerivesTerms c.rest ts rest ∧ nextKind rest = some .closeParen

theorem recognizesTerms_closeParen {c : Cursor} (hk : c.peekKind = some .closeParen) :
    RecognizesTerms α c := by
  intro ts rest
  rw [readTerms_closeParen hk, Reply.yields_ok_iff]
  constructor
  · rintro ⟨rfl, rfl⟩
    exact ⟨⟨[], rfl, .nil⟩, hk⟩
  · rintro ⟨h, -⟩
    rcases nil_or_nextKind_of_takes_terms h with ⟨rfl, rfl⟩ | other
    · exact ⟨rfl, rfl⟩
    · rw [Cursor.peekKind_eq, other] at hk
      cases hk

theorem recognizesTerms_termWord {c : Cursor} (hk : c.peekKind = some .termWord)
    (behind : ∀ d : Cursor, d.Follows c → d.peekKind = some .comma →
      RecognizesTerms α d.advance) : RecognizesTerms α c := by
  intro ts rest
  rw [yields_readTerms_termWord hk]
  have later := (readTerm .standard c : Reply c (Term α)).forward
  constructor
  · rintro ⟨t, hy, ⟨hc, us, h, rfl⟩ | ⟨hp, rfl, rfl⟩⟩
    · obtain ⟨comma, vs, hr, hm⟩ := Cursor.peekKind_eq_some_iff.1 hc
      obtain ⟨others, closed⟩ := (behind _ later hc us rest).1 h
      rw [Cursor.advance_eq hr] at others
      rw [hr] at hy
      have term := yields_readTerm_iff.1 hy
      exact ⟨takes_terms_iff.2 (.inr ⟨t, .inr ⟨comma, vs, us, rfl, term, hm, others⟩⟩), closed⟩
    · exact ⟨takes_terms_iff.2 (.inr ⟨t, .inl ⟨rfl, yields_readTerm_iff.1 hy⟩⟩), hp⟩
  · rintro ⟨h, closed⟩
    rcases takes_terms_iff.1 h with
      ⟨rfl, rfl⟩ | ⟨t, ⟨rfl, term⟩ | ⟨comma, vs, us, rfl, term, hm, others⟩⟩
    · rw [Cursor.peekKind_eq, closed] at hk
      cases hk
    · obtain ⟨hv, hn⟩ := yields_readTerm_iff.2 term
      refine ⟨t, ⟨hv, rfl⟩, .inr ⟨?_, rfl, hn⟩⟩
      rw [Cursor.peekKind_eq, hn, closed]
    · obtain ⟨hv, hn⟩ := yields_readTerm_iff.2 term
      have hc : (readTerm .standard c : Reply c (Term α)).next.peekKind = some .comma :=
        Cursor.peekKind_eq_some_iff.2 ⟨comma, vs, hn, hm⟩
      refine ⟨t, ⟨hv, rfl⟩, .inl ⟨hc, us, (behind _ later hc us rest).2 ⟨?_, closed⟩, rfl⟩⟩
      rw [Cursor.advance_eq hn]
      exact others

theorem recognizesTerms_stray {c : Cursor} (noParen : c.peekKind ≠ some .closeParen)
    (noTerm : c.peekKind ≠ some .termWord) : RecognizesTerms α c := by
  intro ts rest
  rw [readTerms_stray noParen noTerm]
  refine iff_of_false Reply.not_yields_error ?_
  rintro ⟨h, closed⟩
  rcases nil_or_nextKind_of_takes_terms h with ⟨-, rfl⟩ | other
  · exact noParen closed
  · exact noTerm other

theorem yields_readTerms_iff {c : Cursor} {ts : List (Term α)} {rest : List Token} :
    (readTerms .standard c).Yields ts rest ↔
      Takes DerivesTerms c.rest ts rest ∧ nextKind rest = some .closeParen := by
  have recognizes : RecognizesTerms α c := by
    induction c using readTerms.induct with
    | case1 c hk => exact recognizesTerms_closeParen hk
    | case2 c hk ih => exact recognizesTerms_termWord hk ih
    | case3 c kind noParen noTerm hk =>
      refine recognizesTerms_stray ?_ ?_
      · intro he
        exact noParen (Option.some.inj (hk.symm.trans he))
      · intro he
        exact noTerm (Option.some.inj (hk.symm.trans he))
    | case4 c hk => exact recognizesTerms_stray (by rw [hk]; nofun) (by rw [hk]; nofun)
  exact recognizes ts rest

/-- A definition is read as it is derived, from what stands behind `DEFINE` up to its semicolon. -/
theorem yields_readDefinition_iff {start : Position} {c : Cursor} {mark : String}
    (hm : TokenKind.ofText mark = .defineWord) {v : Variable α} {rest : List Token} :
    (readDefinition .standard start c).Yields v rest ↔
      ∃ used e, c.rest = used ++ e :: rest ∧ e.kind = .semicolon ∧
        DerivesBody (mark :: words used) (.definition v.name v.terms) := by
  unfold readDefinition
  simp only [Reading.yields_expect_bind_iff]
  constructor
  · rintro ⟨name, ts, hr, hn, first, us, rfl, hf, h⟩
    obtain ⟨terms, hy, h⟩ := Reading.yields_bind_iff.1 h
    obtain ⟨last, vs, hl, hk, h⟩ := Reading.yields_expect_bind_iff.1 h
    obtain ⟨e, xs, rfl, he, h⟩ := Reading.yields_expect_bind_iff.1 h
    obtain ⟨⟨used, hu, hd⟩, -⟩ := yields_readTerms_iff.1 hy
    cases made : Variable.ofTerms name.text terms with
    | error e => simp [made] at h
    | ok w =>
      simp only [made, Reading.yields_pure_iff] at h
      obtain ⟨rfl, rfl⟩ := h
      obtain ⟨named, termed⟩ := Variable.ofTerms_eq_ok_iff.1 made
      refine ⟨name :: first :: (used ++ [last]), e, ?_, he, ?_⟩
      · rw [hr, show us = used ++ _ from hu, hl]
        simp
      · rw [named, termed]
        simpa using DerivesBody.definition hm hn hf hd hk
  · rintro ⟨used, e, hu, he, h⟩
    generalize hw : mark :: words used = ws at h
    cases h with
    | definition _ hn hf terms hl =>
      obtain ⟨name, _, rfl, named, h₁⟩ := words_eq_cons (List.cons.inj hw).2
      obtain ⟨first, _, rfl, rfl, h₂⟩ := words_eq_cons h₁
      obtain ⟨us, last, rfl, rfl, rfl⟩ := words_eq_concat h₂
      have hy : (readTerms .standard { c with rest := us ++ last :: e :: rest }).Yields v.terms
          (last :: e :: rest) := yields_readTerms_iff.2 ⟨⟨us, rfl, terms⟩, congrArg some hl⟩
      obtain ⟨hv, hr⟩ := hy
      rw [← named] at hn
      refine ⟨name, first :: (us ++ last :: e :: rest), by simpa using hu, hn, first, _, rfl, hf,
        ?_⟩
      refine Reading.yields_bind_iff.2 ⟨v.terms, ⟨hv, rfl⟩, ?_⟩
      refine Reading.yields_expect_bind_iff.2 ⟨last, e :: rest, hr, hl, ?_⟩
      refine Reading.yields_expect_bind_iff.2 ⟨e, rest, rfl, he, ?_⟩
      rw [Variable.ofTerms_eq_ok_iff.2 ⟨named.symm, rfl⟩]
      exact Reading.yields_pure_iff.2 ⟨rfl, rfl⟩

/-- A rule is read as it is derived, from what stands behind `IF` up to its semicolon. -/
theorem yields_readRule_iff {c : Cursor} {mark : String} (hm : TokenKind.ofText mark = .ifWord)
    {r : Rule} {rest : List Token} :
    (readRule c).Yields r rest ↔
      ∃ used, c.rest = used ++ rest ∧ DerivesBody (α := α) (mark :: words used) (.rule r) := by
  unfold readRule
  constructor
  · intro h
    obtain ⟨p, hy, h⟩ := Reading.yields_bind_iff.1 h
    obtain ⟨arrow, ts, hr, ha, h⟩ := Reading.yields_expect_bind_iff.1 h
    obtain ⟨q, hz, h⟩ := Reading.yields_bind_iff.1 h
    obtain ⟨rfl, hl⟩ := Reading.yields_pure_iff.1 h
    rw [hl] at hz
    obtain ⟨used, hu, premise⟩ := yields_readPremise_iff.1 hy
    obtain ⟨us, rfl, conclusion⟩ := yields_readProposition_iff.1 hz
    rw [hr, nextKind_cons, ha] at premise
    refine ⟨used ++ arrow :: us, by simp [hu, hr], ?_⟩
    simpa using DerivesBody.rule hm premise ha conclusion
  · rintro ⟨used, hu, h⟩
    generalize hw : mark :: words used = ws at h
    cases h with
    | rule _ premise ha conclusion =>
      obtain ⟨ts, _, rfl, rfl, hs⟩ := words_eq_append (List.cons.inj hw).2
      obtain ⟨arrow, us, rfl, rfl, rfl⟩ := words_eq_cons hs
      have ha' : nextKind (arrow :: (us ++ rest)) = some .thenWord := congrArg some ha
      obtain ⟨hv, hr⟩ := yields_readPremise_iff.2
        ⟨ts, by simpa using hu, ha'.symm ▸ premise⟩
      have hz : (readProposition { (readPremise c).next with rest := us ++ rest }).Yields _ rest :=
        yields_readProposition_iff.2 ⟨us, rfl, conclusion⟩
      obtain ⟨hv', hr'⟩ := hz
      refine Reading.yields_bind_iff.2 ⟨_, ⟨hv, rfl⟩, ?_⟩
      refine Reading.yields_expect_bind_iff.2 ⟨arrow, us ++ rest, hr, ha, ?_⟩
      exact Reading.yields_bind_iff.2 ⟨_, ⟨hv', rfl⟩, Reading.yields_pure_iff.2 ⟨rfl, hr'⟩⟩

/-! ## Statements -/

theorem Grammar.DerivesBody.exists_mark {ws : List String} {s : Sentence α}
    (h : DerivesBody ws s) : ∃ mark us, ws = mark :: us ∧
      ((TokenKind.ofText mark = .defineWord ∧ ∃ name terms, s = .definition name terms) ∨
        (TokenKind.ofText mark = .ifWord ∧ ∃ r, s = .rule r)) := by
  cases h with
  | rule hm => exact ⟨_, _, rfl, .inr ⟨hm, _, rfl⟩⟩
  | definition hm => exact ⟨_, _, rfl, .inl ⟨hm, _, _, rfl⟩⟩

/-- A statement leaves no error when it is derived, with a semicolon behind it. -/
theorem readStatement_accepts_iff {first : Token} {c : Cursor} {s : Statement α}
    {rest : List Token} :
    Accepts (readStatement .standard first c) s rest ↔
      ∃ used e, first :: c.rest = used ++ e :: rest ∧ e.kind = .semicolon ∧
        DerivesBody (words used) s.sentence := by
  constructor
  · intro h
    by_cases hd : first.kind = .defineWord
    · rw [readStatement_defineWord hd, accepts_finishDefinition_iff] at h
      obtain ⟨v, rfl, hy⟩ := h
      obtain ⟨used, e, hu, he, body⟩ := (yields_readDefinition_iff hd).1 hy
      exact ⟨first :: used, e, by rw [hu]; rfl, he, body⟩
    · by_cases hi : first.kind = .ifWord
      · rw [readStatement_ifWord hi, accepts_finishRule_iff] at h
        obtain ⟨r, e, rfl, hy, he⟩ := h
        obtain ⟨used, hu, body⟩ := (yields_readRule_iff (α := α) hi).1 hy
        exact ⟨first :: used, e, by rw [hu]; rfl, he, body⟩
      · rw [Accepts, readStatement_other hd hi] at h
        cases h.1
  · rintro ⟨used, e, hu, he, body⟩
    obtain ⟨mark, us, hw, start⟩ := body.exists_mark
    obtain ⟨t, used, rfl, rfl, rfl⟩ := words_eq_cons hw
    obtain ⟨rfl, hr⟩ := List.cons.inj hu
    rcases start with ⟨hm, name, terms, hs⟩ | ⟨hm, r, hs⟩
    · cases s with
      | rule => cases hs
      | definition v =>
        rw [readStatement_defineWord hm, accepts_finishDefinition_iff]
        exact ⟨v, rfl, (yields_readDefinition_iff hm).2 ⟨used, e, hr, he, body⟩⟩
    · cases s with
      | definition => cases hs
      | rule r =>
        rw [readStatement_ifWord hm, accepts_finishRule_iff]
        exact ⟨r, e, rfl, (yields_readRule_iff hm).2 ⟨used, hr, body⟩, he⟩

/-! ## Sources -/

theorem Grammar.derivesProgram_iff {ws : List String} {ss : List (Sentence α)} :
    DerivesProgram ws ss ↔ (ws = [] ∧ ss = []) ∨
      ∃ us s mark vs ts, ws = us ++ mark :: vs ∧ ss = s :: ts ∧ DerivesBody us s ∧
        TokenKind.ofText mark = .semicolon ∧ DerivesProgram vs ts := by
  constructor
  · intro h
    cases h with
    | nil => exact .inl ⟨rfl, rfl⟩
    | cons body hm others => exact .inr ⟨_, _, _, _, _, rfl, rfl, body, hm, others⟩
  · rintro (⟨rfl, rfl⟩ | ⟨us, s, mark, vs, ts, rfl, rfl, body, hm, others⟩)
    · exact .nil
    · exact .cons body hm others

/-- A source leaves no error when the grammar derives it and no definition repeats the name of a
term. -/
theorem readStatements_accepts_iff {c : Cursor} {ss : List (Sentence α)} :
    AcceptsAll (readStatements .standard c).1 ss ↔
      DerivesProgram (words c.rest) ss ∧ ∀ s ∈ ss, s.Distinct := by
  induction hl : c.rest.length using Nat.strongRecOn generalizing c ss with
  | ind n ih =>
    rw [derivesProgram_iff]
    cases hr : c.rest with
    | nil =>
      rw [readStatements_nil hr, acceptsAll_nil_iff]
      constructor
      · rintro rfl
        exact ⟨.inl ⟨rfl, rfl⟩, by simp⟩
      · rintro ⟨⟨-, rfl⟩ | ⟨us, s, mark, vs, ts, hw, -⟩, -⟩
        · rfl
        · simp at hw
    | cons first tokens =>
      have ha : c.advance.rest = tokens := by simp [Cursor.advance, hr]
      have shorter (d : Cursor) (later : d.Follows c.advance) : d.rest.length < n :=
        hl ▸ later.length_lt (by simp [hr])
      have later := (readStatement (α := α) .standard first c.advance).2.property
      rw [readStatements_cons hr, acceptsAll_cons_iff readStatement_exists_statement]
      constructor
      · rintro ⟨noError, s, ts, hs, rfl, others⟩
        obtain ⟨used, e, hu, he, body⟩ := readStatement_accepts_iff.1 ⟨noError, hs, rfl⟩
        obtain ⟨program, distinct⟩ := (ih _ (shorter _ later) rfl).1 others
        rw [ha] at hu
        refine ⟨.inr ⟨words used, s.sentence, e.text, _, ts, ?_, rfl, body, he, program⟩, ?_⟩
        · rw [hu]
          simp
        · exact List.forall_mem_cons.2 ⟨s.distinct_sentence, distinct⟩
      · rintro ⟨⟨hw, -⟩ | ⟨us, s, mark, vs, ts, hw, rfl, body, hm, program⟩, distinct⟩
        · simp at hw
        · obtain ⟨hs, others⟩ := List.forall_mem_cons.1 distinct
          obtain ⟨t, rfl⟩ := hs.exists_statement
          obtain ⟨used, rest, hu, rfl, hrest⟩ := words_eq_append hw
          obtain ⟨e, rest, rfl, rfl, rfl⟩ := words_eq_cons hrest
          rw [← ha] at hu
          obtain ⟨noError, hs, left⟩ := readStatement_accepts_iff.2 ⟨used, e, hu, hm, body⟩
          refine ⟨noError, t, ts, hs, rfl, ?_⟩
          refine (ih _ (shorter _ later) rfl).2 ⟨?_, others⟩
          rw [left]
          exact program

/-- The sentences of a source that leaves no error are those that the grammar derives. -/
theorem parseTokens_accepts_iff {tokens : List Token} {ss : List (Sentence α)} :
    ((parseTokens .standard tokens : Parsing α).errors = [] ∧
        (parseTokens .standard tokens).statements.map Statement.sentence = ss) ↔
      DerivesProgram (words tokens) ss ∧ ∀ s ∈ ss, s.Distinct := by
  rw [Parsing.errors_eq_nil_iff]
  exact readStatements_accepts_iff (c := .ofTokens tokens)

/-- Reading accepts what the grammar derives, unless a definition repeats the name of a term, and
finds the rules and definitions of every derivation. -/
theorem parseTokens_accepts_grammar (tokens : List Token) :
    ((parseTokens .standard tokens : Parsing α).errors = [] ↔
        ∃ ss : List (Sentence α), DerivesProgram (words tokens) ss ∧ ∀ s ∈ ss, s.Distinct) ∧
      ∀ ss : List (Sentence α), DerivesProgram (words tokens) ss → (∀ s ∈ ss, s.Distinct) →
        ∃ d, (parseTokens .standard tokens).toExcept = .ok d ∧ d.rules = ss.filterMap (·.rule?) ∧
          d.definitions.map (fun v => (v.name, v.terms)) = ss.filterMap (·.definition?) := by
  refine ⟨⟨fun h => ?_, fun ⟨ss, program, distinct⟩ => ?_⟩, fun ss program distinct => ?_⟩
  · exact ⟨_, parseTokens_accepts_iff.1 ⟨h, rfl⟩⟩
  · exact (parseTokens_accepts_iff.2 ⟨program, distinct⟩).1
  · obtain ⟨noError, rfl⟩ := parseTokens_accepts_iff.2 ⟨program, distinct⟩
    have accepted := Parsing.toExcept_eq_ok_iff.2 ⟨noError, rfl⟩
    exact ⟨_, accepted, Parsing.rules_document _, Parsing.definitions_document _⟩

end FuzzyInference
