import FuzzyInference.Proofs.Readability

/-!
# Which rules are read again

Premises can be put together that no source says, and names can be chosen that no source has. A
rule is read again from its own text when neither is the case.

* `Premise.Flat`: the trees that sources say; `readable_iff`: with names at the leaves, these are
  the readable ones;
* `toExcept_parse_of_derives_rule`: a source with one rule, whatever functions it may use;
* `toExcept_parse_text_rule_iff`: the rules that are read again.
-/

namespace FuzzyInference

open Grammar

/-! ## Premises -/

/-- Every conjunction and disjunction has two operands at least, and no operand of its own kind. -/
inductive Premise.Flat : Premise → Prop
  | is (p : Proposition) : Flat (.is p)
  | all {ps : List Premise} (two : 2 ≤ ps.length) (each : ∀ p ∈ ps, p.Flat)
      (apart : ∀ p ∈ ps, ∀ qs, p ≠ .all qs) : Flat (.all ps)
  | any {ps : List Premise} (two : 2 ≤ ps.length) (each : ∀ p ∈ ps, p.Flat)
      (apart : ∀ p ∈ ps, ∀ qs, p ≠ .any qs) : Flat (.any ps)
  | not {p : Premise} (operand : p.Flat) : Flat (.not p)

/-- The variable and the term can be called that in a source. -/
def Proposition.Named (p : Proposition) : Prop := IsName p.variableName ∧ IsName p.term

theorem mem_propositions_of_mem {p : Premise} {ps : List Premise} {q : Proposition} (hp : p ∈ ps)
    (hq : q ∈ p.propositions) : q ∈ Premise.propositionsOfList ps := by
  rw [Premise.propositionsOfList_eq_flatMap]
  exact List.mem_flatMap.2 ⟨p, hp, hq⟩

theorem Readable.flat {p : Premise} (h : Readable p) : p.Flat := by
  induction h with
  | is => exact .is _
  | all two _ apart ih => exact .all two ih apart
  | any two _ apart ih => exact .any two ih apart
  | not _ ih => exact .not ih

theorem Readable.named {p : Premise} (h : Readable p) : ∀ q ∈ p.propositions, q.Named := by
  have operands {ps : List Premise} (each : ∀ p ∈ ps, ∀ q ∈ p.propositions, q.Named) :
      ∀ q ∈ Premise.propositionsOfList ps, q.Named := by
    intro q hq
    rw [Premise.propositionsOfList_eq_flatMap] at hq
    obtain ⟨p, hp, hq⟩ := List.mem_flatMap.1 hq
    exact each p hp q hq
  induction h with
  | is variableName term =>
    intro q hq
    obtain rfl := List.mem_singleton.1 hq
    exact ⟨variableName, term⟩
  | all _ _ _ ih =>
    rw [Premise.propositions]
    exact operands ih
  | any _ _ _ ih =>
    rw [Premise.propositions]
    exact operands ih
  | not _ ih =>
    rw [Premise.propositions]
    exact ih

theorem Premise.Flat.readable {p : Premise} (h : p.Flat) :
    (∀ q ∈ p.propositions, q.Named) → Readable p := by
  induction h with
  | is q =>
    intro named
    obtain ⟨variableName, term⟩ := named q (List.mem_singleton.2 rfl)
    exact .is variableName term
  | all two _ apart ih =>
    intro named
    apply Readable.all two _ apart
    intro p hp
    apply ih p hp
    intro q hq
    exact named q (mem_propositions_of_mem hp hq)
  | any two _ apart ih =>
    intro named
    apply Readable.any two _ apart
    intro p hp
    apply ih p hp
    intro q hq
    exact named q (mem_propositions_of_mem hp hq)
  | not _ ih =>
    intro named
    exact .not (ih named)

theorem readable_iff {p : Premise} : Readable p ↔ p.Flat ∧ ∀ q ∈ p.propositions, q.Named := by
  constructor
  · intro h
    exact ⟨h.flat, h.named⟩
  · rintro ⟨flat, named⟩
    exact flat.readable named

/-! ## Sources of one rule -/

variable {α : Type}

/-- Nothing is left behind the first statement, so it is the only one. -/
theorem toExcept_parseTokens_of_accepts {table : FunctionTable α} {first : Token}
    {tokens : List Token} {s : Statement α}
    (read : Accepts (readStatement table first (Cursor.ofTokens (first :: tokens)).advance) s []) :
    (parseTokens table (first :: tokens)).toExcept =
      .ok ⟨s.rule?.toList, s.definition?.toList⟩ := by
  obtain ⟨noError, statement, left⟩ := read
  have attempts : (parseTokens table (first :: tokens)).attempts =
      [(readStatement table first (Cursor.ofTokens (first :: tokens)).advance).1] := by
    rw [attempts_parseTokens, readStatements_cons rfl, readStatements_nil left]
  have statements : (parseTokens table (first :: tokens)).statements = [s] := by
    rw [Parsing.statements, attempts, List.filterMap_cons_some statement, List.filterMap_nil]
  rw [Parsing.toExcept_eq_ok_iff, Parsing.errors_eq_nil_iff, attempts, List.forall_mem_singleton]
  refine ⟨noError, ?_⟩
  rw [Parsing.document, statements]
  cases s <;> rfl

variable [Scalar α]

/-- No function is read in a rule, so the table plays no part. -/
theorem toExcept_parse_of_derives_rule {table : FunctionTable α} {source : String}
    {ws : List String} {r : Rule} (spelled : lexemes source.toList = ws ++ [";"])
    (body : DerivesBody ws (.rule r : Sentence α)) :
    (parse table source).toExcept = .ok ⟨[r], []⟩ := by
  rw [← map_text_tokenize] at spelled
  obtain ⟨used, last, tokens, rfl, semicolon⟩ := words_eq_concat spelled
  obtain ⟨mark, us, hw, ⟨-, name, terms, other⟩ | ⟨begins, -⟩⟩ := body.exists_mark
  · cases other
  obtain ⟨first, used, rfl, rfl, rfl⟩ := words_eq_cons hw
  have ends : TokenKind.ofText ";" = .semicolon := TokenKind.ofText_text .semicolon nofun
  rw [← semicolon] at ends
  rw [parse, tokens]
  apply toExcept_parseTokens_of_accepts (s := .rule r)
  rw [readStatement_ifWord begins, accepts_finishRule_iff]
  exact ⟨r, last, rfl, (yields_readRule_iff begins).2 ⟨used, rfl, body⟩, ends⟩

/-- A rule is read again from its own text, as the one statement of it and without an error, if and
only if its premise is one that sources say and all its names are names. -/
theorem toExcept_parse_text_rule_iff (table : FunctionTable α) (r : Rule) :
    (parse table r.text).toExcept = .ok ⟨[r], []⟩ ↔
      r.premise.Flat ∧ ∀ q ∈ r.conclusion :: r.premise.propositions, q.Named := by
  rw [List.forall_mem_cons]
  constructor
  · intro h
    have document := (Parsing.toExcept_eq_ok_iff.1 h).2
    have member : r ∈ (parse table r.text).document.rules := by
      rw [document]
      exact List.mem_singleton.2 rfl
    obtain ⟨premise, conclusion⟩ := readable_of_mem_rules member
    obtain ⟨flat, named⟩ := readable_iff.1 premise
    exact ⟨flat, conclusion, named⟩
  · rintro ⟨flat, ⟨variableName, term⟩, named⟩
    obtain ⟨ws, spells, body⟩ :=
      writesStatement_rule (α := α) (flat.readable named) variableName term
    exact toExcept_parse_of_derives_rule spells.lexemes_eq body

end FuzzyInference
