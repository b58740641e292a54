import FuzzyInference.Number.Binary64
import FuzzyInference.Proofs.Acceptance
import FuzzyInference.Proofs.Continuation

/-!
# Broken statements

A statement that breaks off, and the statements behind it.

* `StartsStatement`: what stands behind starts with `IF` or `DEFINE`;
* `document_append_of_complete`: it is read as if it stood by itself;
* `document_append_of_awaiting`: unless the name of a function is missing right before it. Its
  first word is then taken for that name, and what is left of its first statement is lost.
-/

namespace FuzzyInference

variable {α : Type}

/-! ## Documents -/

/-- Documents are put together by their rules and by their definitions. -/
instance : Append (Document α) where
  append d e := ⟨d.rules ++ e.rules, d.definitions ++ e.definitions⟩

theorem Document.rules_append (d e : Document α) : (d ++ e).rules = d.rules ++ e.rules := rfl

theorem Parsing.document_append {p q r : Parsing α}
    (h : p.statements = q.statements ++ r.statements) : p.document = q.document ++ r.document := by
  rw [document, h, List.filterMap_append, List.filterMap_append]
  rfl

/-! ## What stands behind -/

def StartsStatement : List Token → Prop
  | [] => False
  | t :: _ => t.kind.OpensStatement

instance : DecidablePred StartsStatement
  | [] => inferInstanceAs (Decidable False)
  | t :: _ => inferInstanceAs (Decidable t.kind.OpensStatement)

theorem StartsStatement.opens {tokens : List Token} (h : StartsStatement tokens) {t : Token}
    (ht : tokens.head? = some t) : t.kind.OpensStatement := by
  cases tokens with
  | nil => cases ht
  | cons u us => exact Option.some.inj ht ▸ h

theorem StartsStatement.ne_nil {tokens : List Token} (h : StartsStatement tokens) :
    tokens ≠ [] := by
  rintro rfl
  exact h

namespace Correspondence

/-- A source and the same one with further statements behind it, whatever the places. -/
def continuing (further : List Token)
    (starts : ∀ {t}, further.head? = some t → t.kind.OpensStatement) : Correspondence where
  place _ _ := True
  word := Eq
  upper same := congrArg String.toUpper same
  name same _ := same
  column _ _ := trivial
  further := further
  starts := starts

theorem continuing_aligned (further : List Token)
    (starts : ∀ {t}, further.head? = some t → t.kind.OpensStatement) {c d : Cursor}
    (h : d.rest = c.rest ++ further) : (continuing further starts).Aligned c d := by
  refine ⟨⟨c.rest, ?_, h⟩, fun _ => trivial⟩
  exact List.forall₂_same.2 fun t _ => ⟨rfl, trivial⟩

end Correspondence

variable [Scalar α]

open Correspondence

omit [Scalar α] in
theorem map_statement_eq {R : Correspondence} {J : Prop} {as bs : List (Attempt α)}
    (h : List.Forall₂ (R.SameAttempt J) as bs) :
    as.filterMap (·.statement) = bs.filterMap (·.statement) := by
  induction h with
  | nil => rfl
  | cons same _ ih => rw [List.filterMap_cons, List.filterMap_cons, same.statement, ih]

/-- The statements do not depend on the places. -/
theorem statements_congr {c d : Cursor} (h : d.rest = c.rest) :
    (readStatements (α := α) .standard d).1.filterMap (·.statement) =
      (readStatements (α := α) .standard c).1.filterMap (·.statement) := by
  have side := continuing_aligned [] nofun (h.trans (List.append_nil _).symm)
  obtain ⟨bs, e, read, same, left, -⟩ := readStatements_aligned (α := α) side
  rw [read, readStatements_nil (left.rest_eq (.inl rfl)), List.append_nil, map_statement_eq same]

/-- Further statements are read by themselves, or without the first word and what is left of the
statement it started. -/
theorem statements_append (before : List Token) {after : List Token}
    (starts : StartsStatement after) :
    ∃ rest, (parseTokens .standard (before ++ after) : Parsing α).statements =
        (parseTokens .standard before : Parsing α).statements ++
          (parseTokens .standard rest : Parsing α).statements ∧
      (AwaitsFunction (parseTokens .standard before : Parsing α).attempts ∧
          rest = skipStatement after.tail ∨
        ¬ AwaitsFunction (parseTokens .standard before : Parsing α).attempts ∧ rest = after) := by
  have side := continuing_aligned after starts.opens (c := .ofTokens before)
    (d := .ofTokens (before ++ after)) rfl
  obtain ⟨bs, e, read, same, left, -⟩ := readStatements_aligned (α := α) side
  refine ⟨e.rest, ?_, ?_⟩
  · have behind := statements_congr (α := α) (c := .ofTokens e.rest) (d := e) rfl
    rw [Parsing.statements, attempts_parseTokens, read, List.filterMap_append,
      ← map_statement_eq same, behind]
    rfl
  · cases left with
    | further plain rest => exact .inr ⟨plain.resolve_left starts.ne_nil, rest⟩
    | swallowed _ awaiting rest => exact .inl ⟨awaiting, rest⟩

theorem document_append_of_complete {before after : List Token} (starts : StartsStatement after)
    (complete : ¬ AwaitsFunction (parseTokens .standard before : Parsing α).attempts) :
    (parseTokens .standard (before ++ after) : Parsing α).document =
      (parseTokens .standard before).document ++ (parseTokens .standard after).document := by
  obtain ⟨rest, read, ⟨awaiting, -⟩ | ⟨-, rfl⟩⟩ := statements_append (α := α) before starts
  · exact absurd awaiting complete
  · exact Parsing.document_append read

theorem document_append_of_awaiting {before after : List Token} (starts : StartsStatement after)
    (awaiting : AwaitsFunction (parseTokens .standard before : Parsing α).attempts) :
    (parseTokens .standard (before ++ after) : Parsing α).document =
      (parseTokens .standard before).document ++
        (parseTokens .standard (skipStatement after.tail)).document := by
  obtain ⟨rest, read, ⟨-, rfl⟩ | ⟨complete, -⟩⟩ := statements_append (α := α) before starts
  · exact Parsing.document_append read
  · exact absurd awaiting complete

/-! ## What is lost -/

open Grammar

open TokenKind (ofText)

/-- A word inside a statement: neither its first word nor the semicolon behind it. -/
def Interior (word : String) : Prop :=
  ofText word ≠ .ifWord ∧ ofText word ≠ .defineWord ∧ ofText word ≠ .semicolon

omit [Scalar α] in
theorem interior_of_kind {word : String} {kind : TokenKind} (h : ofText word = kind)
    (inside : kind ≠ .ifWord ∧ kind ≠ .defineWord ∧ kind ≠ .semicolon) : Interior word := by
  rw [Interior, h]
  exact inside

theorem skipStatement_interior {tokens rest : List Token} {mark : Token}
    (inside : ∀ w ∈ words tokens, Interior w) (hm : mark.kind = .semicolon) :
    skipStatement (tokens ++ mark :: rest) = rest := by
  induction tokens with
  | nil => simp only [List.nil_append, skipStatement, hm]
  | cons t ts ih =>
    obtain ⟨⟨noIf, noDefine, noEnd⟩, others⟩ := List.forall_mem_cons.1 inside
    rw [List.cons_append, skipStatement]
    split
    · exact absurd ‹_› noEnd
    · exact absurd ‹_› noIf
    · exact absurd ‹_› noDefine
    · exact ih others

theorem interior_of_derivesProposition {ws : List String} {p : Proposition}
    (h : DerivesProposition ws p) : ∀ w ∈ ws, Interior w := by
  cases h with
  | mk hn hi ht =>
    have name := interior_of_kind hn (by decide)
    have is := interior_of_kind hi (by decide)
    have term := interior_of_kind ht (by decide)
    simp [name, is, term]

mutual

theorem interior_of_derivesPremise {ws : List String} {next : Option TokenKind} {p : Premise} :
    DerivesPremise ws next p → ∀ w ∈ ws, Interior w
  | .single operand _ _ => interior_of_derivesOperand operand
  | .and left hm right => List.forall_mem_append.2 ⟨interior_of_derivesOperand left,
      List.forall_mem_cons.2 ⟨interior_of_kind hm (by decide), interior_of_derivesPremise right⟩⟩
  | .or left hm right => List.forall_mem_append.2 ⟨interior_of_derivesOperand left,
      List.forall_mem_cons.2 ⟨interior_of_kind hm (by decide), interior_of_derivesPremise right⟩⟩

theorem interior_of_derivesOperand {ws : List String} {next : Option TokenKind} {p : Premise} :
    DerivesOperand ws next p → ∀ w ∈ ws, Interior w
  | .is proposition => interior_of_derivesProposition proposition
  | .group hf inner hl => List.forall_mem_cons.2 ⟨interior_of_kind hf (by decide),
      List.forall_mem_append.2 ⟨interior_of_derivesPremise inner,
        List.forall_mem_singleton.2 (interior_of_kind hl (by decide))⟩⟩
  | .not hm operand _ =>
    List.forall_mem_cons.2 ⟨interior_of_kind hm (by decide), interior_of_derivesOperand operand⟩
  | .notRest hm premise _ =>
    List.forall_mem_cons.2 ⟨interior_of_kind hm (by decide), interior_of_derivesPremise premise⟩

end

theorem interior_of_derivesNumber {word : String} {x : α} (h : DerivesNumber word x) :
    Interior word := by
  cases h with
  | mk hw hn => exact interior_of_kind hw (by decide)

theorem interior_of_derivesNumbers {ws : List String} {xs : List α} (h : DerivesNumbers ws xs) :
    ∀ w ∈ ws, Interior w := by
  induction h with
  | nil => simp
  | first number => simp [interior_of_derivesNumber number]
  | snoc before nonempty hc number ih =>
    have comma := interior_of_kind hc (by decide)
    have word := interior_of_derivesNumber number
    simpa [or_imp, forall_and, comma, word] using ih

theorem interior_of_derivesFuzzySet {ws : List String} {m : FuzzySet α}
    (h : DerivesFuzzySet ws m) : ∀ w ∈ ws, Interior w := by
  induction h with
  | @call f name ws xs m hn arguments made =>
    have function := interior_of_kind hn (by cases f <;> decide)
    cases arguments with
    | mk hf numbers hl =>
      have first := interior_of_kind hf (by decide)
      have last := interior_of_kind hl (by decide)
      simpa [or_imp, forall_and, function, first, last] using interior_of_derivesNumbers numbers
  | inverted hn hf inner hl ih =>
    have function := interior_of_kind hn (by decide)
    have first := interior_of_kind hf (by decide)
    have last := interior_of_kind hl (by decide)
    simpa [or_imp, forall_and, function, first, last] using ih

theorem interior_of_derivesTerm {ws : List String} {t : Term α} (h : DerivesTerm ws t) :
    ∀ w ∈ ws, Interior w := by
  cases h with
  | mk hm hn fuzzySet =>
    have mark := interior_of_kind hm (by decide)
    have name := interior_of_kind hn (by decide)
    simpa [mark, name] using interior_of_derivesFuzzySet fuzzySet

theorem interior_of_derivesTerms {ws : List String} {ts : List (Term α)} (h : DerivesTerms ws ts) :
    ∀ w ∈ ws, Interior w := by
  induction h with
  | nil => simp
  | last term => exact interior_of_derivesTerm term
  | cons term hc others ih =>
    have comma := interior_of_kind hc (by decide)
    have behind := List.forall_mem_cons.2 ⟨comma, ih⟩
    exact List.forall_mem_append.2 ⟨interior_of_derivesTerm term, behind⟩

/-- A statement starts with `IF` or `DEFINE`, and neither word comes again before its semicolon. -/
theorem interior_of_derivesBody {ws : List String} {s : Sentence α} (h : DerivesBody ws s) :
    ∃ w us, ws = w :: us ∧ (ofText w).OpensStatement ∧ ∀ u ∈ us, Interior u := by
  cases h with
  | rule hm premise ha conclusion =>
    refine ⟨_, _, rfl, .inl hm, List.forall_mem_append.2 ⟨interior_of_derivesPremise premise, ?_⟩⟩
    have arrow := interior_of_kind ha (by decide)
    exact List.forall_mem_cons.2 ⟨arrow, interior_of_derivesProposition conclusion⟩
  | definition hm hn hf terms hl =>
    refine ⟨_, _, rfl, .inr hm, ?_⟩
    have name := interior_of_kind hn (by decide)
    have first := interior_of_kind hf (by decide)
    have last := interior_of_kind hl (by decide)
    simpa [or_imp, forall_and, name, first, last] using interior_of_derivesTerms terms

theorem startsStatement_of_derivesBody {used : List Token} {s : Sentence α}
    (body : DerivesBody (words used) s) (rest : List Token) : StartsStatement (used ++ rest) := by
  obtain ⟨w, us, hw, opens, -⟩ := interior_of_derivesBody body
  obtain ⟨first, others, rfl, rfl, -⟩ := words_eq_cons hw
  exact opens

/-- Behind a function name that is missing, a whole statement is lost, however well it is formed. -/
theorem document_append_of_lost {before used after : List Token} {mark : Token} {s : Sentence α}
    (awaiting : AwaitsFunction (parseTokens .standard before : Parsing α).attempts)
    (body : DerivesBody (words used) s) (hm : mark.kind = .semicolon) :
    (parseTokens .standard (before ++ (used ++ mark :: after)) : Parsing α).document =
      (parseTokens .standard before).document ++ (parseTokens .standard after).document := by
  have starts := startsStatement_of_derivesBody body (mark :: after)
  obtain ⟨w, us, hw, -, inside⟩ := interior_of_derivesBody body
  obtain ⟨first, others, rfl, -, rfl⟩ := words_eq_cons hw
  rw [document_append_of_awaiting starts awaiting, List.cons_append, List.tail_cons,
    skipStatement_interior inside hm]

theorem rules_document_of_derivesProgram {tokens : List Token} {ss : List (Sentence α)}
    (program : DerivesProgram (words tokens) ss) (distinct : ∀ s ∈ ss, s.Distinct) :
    (parseTokens .standard tokens : Parsing α).document.rules = ss.filterMap (·.rule?) := by
  obtain ⟨-, rfl⟩ := parseTokens_accepts_iff.2 ⟨program, distinct⟩
  exact Parsing.rules_document _

/-- A rule with its semicolon, and nothing else in the source, is read. -/
theorem rules_document_of_derivesBody {used : List Token} {mark : Token} {r : Rule}
    (body : DerivesBody (α := α) (words used) (.rule r)) (hm : mark.kind = .semicolon) :
    (parseTokens .standard (used ++ [mark]) : Parsing α).document.rules = [r] := by
  have program : DerivesProgram (words (used ++ [mark])) [Sentence.rule (α := α) r] := by
    rw [words, List.map_append]
    exact .cons body hm .nil
  exact rules_document_of_derivesProgram program (by simp [Sentence.Distinct])

theorem rules_document_nil : (parseTokens .standard [] : Parsing α).document.rules = [] := by
  rw [parseTokens, readStatements_nil rfl]
  rfl

/-- `IF a IS b THEN c IS d`. -/
theorem derivesBody_rule : DerivesBody (α := α) ["IF", "a", "IS", "b", "THEN", "c", "IS", "d"]
    (.rule ⟨.is ⟨"a", "b"⟩, ⟨"c", "d"⟩⟩) := by
  have premise : DerivesPremise ["a", "IS", "b"] (some .thenWord) (.is ⟨"a", "b"⟩) :=
    .single (.is (.is (by decide +kernel) (by decide +kernel))) nofun nofun
  exact .ifThen premise (.is (by decide +kernel) (by decide +kernel))

theorem document_append_ne {before used : List Token} {mark : Token} {r : Rule}
    (awaiting : AwaitsFunction (parseTokens .standard before : Parsing α).attempts)
    (body : DerivesBody (α := α) (words used) (.rule r)) (hm : mark.kind = .semicolon) :
    (parseTokens .standard (before ++ (used ++ [mark])) : Parsing α).document ≠
      (parseTokens .standard before).document ++
        (parseTokens .standard (used ++ [mark])).document := by
  intro keeps
  rw [document_append_of_lost awaiting body hm] at keeps
  have rules := congrArg Document.rules keeps
  rw [Document.rules_append, Document.rules_append, rules_document_of_derivesBody body hm,
    rules_document_nil] at rules
  exact absurd (List.append_cancel_left rules).symm (List.cons_ne_nil _ _)

/-- A definition that breaks off behind the name of a term awaits a function. -/
theorem awaitsFunction_of_cut {define name first mark term : Token} (hd : define.kind = .defineWord)
    (hn : name.kind = .identifier) (hf : first.kind = .openParen) (hm : mark.kind = .termWord)
    (ht : term.kind = .identifier) :
    AwaitsFunction
      (parseTokens .standard [define, name, first, mark, term] : Parsing α).attempts := by
  have broken (c : Cursor) (h : c.rest = [mark, term]) :
      (readTerms .standard c : Reply c (List (Term α))).result =
        .error ⟨.missingFunction, c.endPosition⟩ := by
    rw [readTerms]
    simp [Cursor.peekKind, Cursor.peek, h, hm, readTerm, bind, Reply.andThen, Reading.expect,
      Reading.expectAt, Reply.ok, Reply.since, Cursor.advance, Cursor.position, ht,
      readFuzzySet_nil, Reply.error]
  have definition (c : Cursor) (h : c.rest = [name, first, mark, term]) :
      (readDefinition .standard define.position c : Reply c (Variable α)).result =
        .error ⟨.missingFunction, c.endPosition⟩ := by
    simp [readDefinition, bind, Reading.expect, Reading.expectAt, Cursor.peek, h, hn, hf,
      Reply.andThen, Reply.ok, Reply.since, Cursor.advance, Cursor.position, broken]
  rw [parseTokens, readStatements_cons rfl, readStatement_defineWord hd, awaitsFunction_cons_iff,
    finishDefinition_error (definition _ rfl)]
  exact .inl ⟨_, rfl, rfl⟩

/-- What stands behind a source keeps its rules and definitions, unless the name of a function is
missing at the end of that source. In that case the first word behind is taken for the name, and
what is left of the statement that the word starts is passed over. -/
theorem document_append_iff_no_missingFunction (before : List Token) :
    ((∀ after, StartsStatement after →
        (parseTokens .standard (before ++ after) : Parsing α).document =
          (parseTokens .standard before).document ++ (parseTokens .standard after).document) ↔
      ∀ e ∈ (parseTokens .standard before : Parsing α).errors, e.problem ≠ .missingFunction) ∧
    ((∃ e ∈ (parseTokens .standard before : Parsing α).errors, e.problem = .missingFunction) →
      ∀ after, StartsStatement after →
        (parseTokens .standard (before ++ after) : Parsing α).document =
          (parseTokens .standard before).document ++
            (parseTokens .standard (skipStatement after.tail)).document) := by
  refine ⟨⟨fun keeps e he missing => ?_, fun complete after starts => ?_⟩,
    fun awaiting after starts => document_append_of_awaiting starts awaiting⟩
  · -- A rule is read by itself, but not behind this source.
    obtain ⟨used, body⟩ : ∃ used : List Token, DerivesBody (α := α) (words used) _ :=
      ⟨["IF", "a", "IS", "b", "THEN", "c", "IS", "d"].map (⟨·, .start⟩), derivesBody_rule⟩
    have hm : (⟨";", .start⟩ : Token).kind = .semicolon := by decide +kernel
    have starts := startsStatement_of_derivesBody body [⟨";", .start⟩]
    exact document_append_ne ⟨e, he, missing⟩ body hm (keeps _ starts)
  · exact document_append_of_complete starts fun ⟨e, he, missing⟩ => complete e he missing

theorem document_append_ne_cut :
    StartsStatement (tokenize "IF a IS b THEN c IS d ;") ∧
      (parseTokens .standard
          (tokenize "DEFINE v ( TERM t" ++ tokenize "IF a IS b THEN c IS d ;") :
            Parsing Float).document ≠
        (parseTokens .standard (tokenize "DEFINE v ( TERM t")).document ++
          (parseTokens .standard (tokenize "IF a IS b THEN c IS d ;")).document := by
  have before : tokenize "DEFINE v ( TERM t" = [⟨"DEFINE", ⟨1, 1⟩⟩, ⟨"v", ⟨1, 8⟩⟩, ⟨"(", ⟨1, 10⟩⟩,
      ⟨"TERM", ⟨1, 12⟩⟩, ⟨"t", ⟨1, 17⟩⟩] := by decide +kernel
  have after : tokenize "IF a IS b THEN c IS d ;" = [⟨"IF", ⟨1, 1⟩⟩, ⟨"a", ⟨1, 4⟩⟩, ⟨"IS", ⟨1, 6⟩⟩,
      ⟨"b", ⟨1, 9⟩⟩, ⟨"THEN", ⟨1, 11⟩⟩, ⟨"c", ⟨1, 16⟩⟩, ⟨"IS", ⟨1, 18⟩⟩, ⟨"d", ⟨1, 21⟩⟩] ++
        [⟨";", ⟨1, 23⟩⟩] := by decide +kernel
  refine ⟨by decide +kernel, ?_⟩
  rw [before, after]
  refine document_append_ne (awaitsFunction_of_cut ?_ ?_ ?_ ?_ ?_) derivesBody_rule ?_
  all_goals decide +kernel

end FuzzyInference
