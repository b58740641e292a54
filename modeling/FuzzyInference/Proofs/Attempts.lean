import FuzzyInference.Language.Parsing
import FuzzyInference.Proofs.Grammar
import FuzzyInference.Proofs.Yield

/-!
# Attempts at statements

What came of statements, whatever functions the source may use.

* `Accepts`, `AcceptsAll`: statements that were read whole, and what they say;
* `readStatement_defineWord`, `readStatement_ifWord`, `readStatement_other`: the first word decides;
* `readStatement_eq_rule_iff`, `readStatement_eq_definition_iff`: which statement was read;
* `readStatement_exists_statement`: without an error there is a statement;
* `error_readStatement`, `recorded_once`: an error is recorded in one of two places, never in both;
* `exists_readRule_of_mem`, `exists_readDefinition_of_mem`: what is read of tokens was read at one
  of them;
* `Parsing.rules_document`, `Parsing.definitions_document`: the document of what was read.
-/

namespace FuzzyInference

variable {α : Type}

def Statement.sentence : Statement α → Sentence α
  | rule r => .rule r
  | definition v => .definition v.name v.terms

theorem Statement.distinct_sentence (s : Statement α) : s.sentence.Distinct := by
  cases s with
  | rule => trivial
  | definition v => exact v.distinct

theorem Sentence.Distinct.exists_statement {s : Sentence α} (h : s.Distinct) :
    ∃ t : Statement α, t.sentence = s := by
  cases s with
  | rule r => exact ⟨.rule r, rfl⟩
  | definition name terms => exact ⟨.definition ⟨name, terms, h⟩, rfl⟩

/-! ## One statement -/

theorem readStatement_defineWord {table : FunctionTable α} {first : Token} {c : Cursor}
    (h : first.kind = .defineWord) :
    readStatement table first c =
      finishDefinition first.position (readDefinition table first.position c) := by
  simp only [readStatement, h]

theorem readStatement_ifWord {table : FunctionTable α} {first : Token} {c : Cursor}
    (h : first.kind = .ifWord) :
    readStatement table first c = finishRule first.position (readRule c) := by
  simp only [readStatement, h]

/-- A statement that starts with any other word is wrong as a whole. -/
theorem readStatement_other {table : FunctionTable α} {first : Token} {c : Cursor}
    (noDefine : first.kind ≠ .defineWord) (noIf : first.kind ≠ .ifWord) :
    readStatement table first c =
      (⟨first.position, none, some ⟨.unknownStatement first.text, first.position⟩⟩,
        if first.kind = .semicolon then ⟨c, .refl c⟩ else ⟨c.recover, c.recover_follows⟩) := by
  unfold readStatement
  split <;> first | contradiction | rfl

/-- What was read of a statement is all of it: the statement `s`, and `rest` is left. -/
def Accepts {c : Cursor} (read : Attempt α × { d : Cursor // d.Follows c }) (s : Statement α)
    (rest : List Token) : Prop :=
  read.1.error = none ∧ read.1.statement = some s ∧ read.2.1.rest = rest

theorem accepts_finishDefinition_iff {start : Position} {c : Cursor} {reply : Reply c (Variable α)}
    {s : Statement α} {rest : List Token} :
    Accepts (finishDefinition start reply) s rest ↔
      ∃ v, s = .definition v ∧ reply.Yields v rest := by
  cases hr : reply.result with
  | error e => simp [Accepts, finishDefinition, Reply.Yields, hr]
  | ok v =>
    simp only [Accepts, finishDefinition, Reply.Yields, hr, Option.some.injEq, true_and]
    constructor
    · rintro ⟨rfl, rfl⟩
      exact ⟨v, rfl, rfl, rfl⟩
    · rintro ⟨w, rfl, hw, rfl⟩
      exact ⟨congrArg _ (Except.ok.inj hw), rfl⟩

theorem accepts_finishRule_iff {start : Position} {c : Cursor} {reply : Reply c Rule}
    {s : Statement α} {rest : List Token} :
    Accepts (finishRule start reply) s rest ↔
      ∃ r e, s = .rule r ∧ reply.Yields r (e :: rest) ∧ e.kind = .semicolon := by
  cases hr : reply.result with
  | error e => simp [Accepts, finishRule, Reply.Yields, hr]
  | ok r =>
    by_cases hk : reply.next.peekKind = some .semicolon
    · obtain ⟨e, ts, hn, he⟩ := Cursor.peekKind_eq_some_iff.1 hk
      simp only [Accepts, finishRule, Reply.Yields, hr, hk, if_true, Option.some.injEq, true_and,
        Cursor.advance, hn, List.tail_cons]
      constructor
      · rintro ⟨rfl, rfl⟩
        exact ⟨r, e, rfl, ⟨rfl, rfl⟩, he⟩
      · rintro ⟨q, u, rfl, ⟨hq, hu⟩, -⟩
        exact ⟨congrArg _ (Except.ok.inj hq), (List.cons.inj hu).2⟩
    · simp only [Accepts, finishRule, hr, hk, if_false, reduceCtorEq, false_and, false_iff]
      rintro ⟨q, e, -, ⟨-, hn⟩, he⟩
      exact hk (Cursor.peekKind_eq_some_iff.2 ⟨e, rest, hn, he⟩)

theorem finishDefinition_error {start : Position} {c : Cursor} {reply : Reply c (Variable α)}
    {e : ParseError} (h : reply.result = .error e) :
    (finishDefinition start reply).1 = ⟨start, none, some e⟩ := by
  simp only [finishDefinition, h]

theorem finishDefinition_statement {start : Position} {c : Cursor} {reply : Reply c (Variable α)} :
    (finishDefinition start reply).1.statement = (reply.result.map .definition).toOption := by
  unfold finishDefinition
  split <;> simp [*, Except.map, Except.toOption]

theorem finishRule_statement {start : Position} {c : Cursor} {reply : Reply c Rule} :
    (finishRule (α := α) start reply).1.statement = (reply.result.map .rule).toOption := by
  unfold finishRule
  split
  · split <;> simp [*, Except.map, Except.toOption]
  · simp [*, Except.map, Except.toOption]

theorem readStatement_eq_rule_iff {table : FunctionTable α} {first : Token} {c : Cursor}
    {r : Rule} :
    (readStatement table first c).1.statement = some (.rule r) ↔
      first.kind = .ifWord ∧ (readRule c).result = .ok r := by
  by_cases hd : first.kind = .defineWord
  · rw [readStatement_defineWord hd, finishDefinition_statement, hd]
    cases (readDefinition table first.position c).result <;> simp [Except.map, Except.toOption]
  · by_cases hi : first.kind = .ifWord
    · rw [readStatement_ifWord hi, finishRule_statement]
      cases (readRule c).result <;> simp [hi, Except.map, Except.toOption]
    · rw [readStatement_other hd hi]
      simp [hi]

theorem readStatement_eq_definition_iff {table : FunctionTable α} {first : Token} {c : Cursor}
    {v : Variable α} :
    (readStatement table first c).1.statement = some (.definition v) ↔
      first.kind = .defineWord ∧ (readDefinition table first.position c).result = .ok v := by
  by_cases hd : first.kind = .defineWord
  · rw [readStatement_defineWord hd, finishDefinition_statement]
    cases (readDefinition table first.position c).result <;> simp [hd, Except.map, Except.toOption]
  · by_cases hi : first.kind = .ifWord
    · rw [readStatement_ifWord hi, finishRule_statement, hi]
      cases (readRule c).result <;> simp [Except.map, Except.toOption]
    · rw [readStatement_other hd hi]
      simp [hd]

/-- No attempt ends without a statement and without an error. -/
theorem readStatement_exists_statement {table : FunctionTable α} {first : Token} {c : Cursor}
    (h : (readStatement table first c).1.error = none) :
    ∃ s, (readStatement table first c).1.statement = some s := by
  by_cases hd : first.kind = .defineWord
  · rw [readStatement_defineWord hd] at h ⊢
    rw [finishDefinition_statement]
    cases hr : (readDefinition table first.position c).result with
    | ok v => exact ⟨_, rfl⟩
    | error e =>
      rw [finishDefinition_error hr] at h
      cases h
  · by_cases hi : first.kind = .ifWord
    · rw [readStatement_ifWord hi] at h ⊢
      rw [finishRule_statement]
      cases hr : (readRule c).result with
      | ok r => exact ⟨_, rfl⟩
      | error e => simp [finishRule, hr] at h
    · rw [readStatement_other hd hi] at h
      cases h

/-! ## Where errors are recorded -/

/-- The errors recorded for a statement: in the reading of a rule, which goes on although its
semicolon is missing, and in the reading of the source, for a statement that is given up. -/
structure Recorded where
  inRule : Option ParseError
  inSource : Option ParseError

def Reply.failure? {β : Type} {c : Cursor} (reply : Reply c β) : Option ParseError :=
  match reply.result with
  | .ok _ => none
  | .error e => some e

/-- The error of a rule that was read but does not end in a semicolon. -/
def missingEnd? {c : Cursor} (reply : Reply c Rule) : Option ParseError :=
  match reply.result with
  | .ok _ =>
    if reply.next.peekKind = some .semicolon then none
    else some ⟨.missingRuleEnd, reply.next.position⟩
  | .error _ => none

def recorded (table : FunctionTable α) (first : Token) (c : Cursor) : Recorded :=
  match first.kind with
  | .defineWord => ⟨none, (readDefinition table first.position c).failure?⟩
  | .ifWord => ⟨missingEnd? (readRule c), (readRule c).failure?⟩
  | _ => ⟨none, some ⟨.unknownStatement first.text, first.position⟩⟩

theorem recorded_once (table : FunctionTable α) (first : Token) (c : Cursor) :
    (recorded table first c).inRule = none ∨ (recorded table first c).inSource = none := by
  unfold recorded
  split
  · exact .inl rfl
  · cases hr : (readRule c).result with
    | ok r => exact .inr (by simp only [Reply.failure?, hr])
    | error e => exact .inl (by simp only [missingEnd?, hr])
  · exact .inl rfl

theorem error_readStatement (table : FunctionTable α) (first : Token) (c : Cursor) :
    (readStatement table first c).1.error =
      (recorded table first c).inRule.or (recorded table first c).inSource := by
  by_cases hd : first.kind = .defineWord
  · simp only [readStatement_defineWord hd, recorded, hd, finishDefinition, Reply.failure?]
    cases (readDefinition table first.position c).result <;> rfl
  · by_cases hi : first.kind = .ifWord
    · simp only [readStatement_ifWord hi, recorded, hi, finishRule, missingEnd?, Reply.failure?]
      cases (readRule c).result with
      | ok r =>
        simp only
        split <;> rfl
      | error e => rfl
    · simp only [readStatement_other hd hi, recorded, Option.none_or]

/-! ## All statements -/

theorem readStatements_nil {table : FunctionTable α} {c : Cursor} (h : c.rest = []) :
    readStatements table c = ([], c) := by
  rw [readStatements, dif_pos h]

theorem readStatements_cons {table : FunctionTable α} {c : Cursor} {t : Token} {ts : List Token}
    (h : c.rest = t :: ts) :
    readStatements table c =
      ((readStatement table t c.advance).1 ::
          (readStatements table (readStatement table t c.advance).2).1,
        (readStatements table (readStatement table t c.advance).2).2) := by
  have hne : c.rest ≠ [] := by simp [h]
  have hh : c.rest.head hne = t := by simp [h]
  rw [readStatements, dif_neg hne]
  simp only [hh]

/-- Every attempt starts at some token. -/
theorem exists_readStatement_of_mem {table : FunctionTable α} {c : Cursor} {a : Attempt α}
    (h : a ∈ (readStatements table c).1) :
    ∃ first d, first :: d.rest <:+ c.rest ∧ a = (readStatement table first d).1 := by
  induction hl : c.rest.length using Nat.strongRecOn generalizing c with
  | ind n ih =>
    cases hr : c.rest with
    | nil =>
      rw [readStatements_nil hr] at h
      cases h
    | cons first tokens =>
      have behind : c.advance.rest = tokens := by simp [Cursor.advance, hr]
      have later := (readStatement table first c.advance).2.property
      rw [readStatements_cons hr] at h
      rcases List.mem_cons.1 h with rfl | others
      · exact ⟨first, c.advance, behind ▸ List.suffix_rfl, rfl⟩
      · obtain ⟨mark, d, part, rfl⟩ := ih _ (hl ▸ later.length_lt (by simp [hr])) others rfl
        have part := part.trans later.rest
        rw [behind] at part
        exact ⟨mark, d, part.trans (List.suffix_cons _ _), rfl⟩

theorem attempts_parseTokens (table : FunctionTable α) (tokens : List Token) :
    (parseTokens table tokens).attempts = (readStatements table (.ofTokens tokens)).1 := rfl

/-- There is no error among the attempts, and they say `ss`. -/
def AcceptsAll (attempts : List (Attempt α)) (ss : List (Sentence α)) : Prop :=
  (∀ a ∈ attempts, a.error = none) ∧ (attempts.filterMap (·.statement)).map (·.sentence) = ss

theorem acceptsAll_nil_iff {ss : List (Sentence α)} : AcceptsAll [] ss ↔ ss = [] := by
  simp [AcceptsAll, eq_comm]

theorem acceptsAll_cons_iff {a : Attempt α} {attempts : List (Attempt α)} {ss : List (Sentence α)}
    (complete : a.error = none → ∃ s, a.statement = some s) :
    AcceptsAll (a :: attempts) ss ↔ a.error = none ∧
      ∃ s ts, a.statement = some s ∧ ss = s.sentence :: ts ∧ AcceptsAll attempts ts := by
  simp only [AcceptsAll, List.forall_mem_cons]
  constructor
  · rintro ⟨⟨ha, others⟩, rfl⟩
    obtain ⟨s, hs⟩ := complete ha
    exact ⟨ha, s, _, hs, by simp [hs], others, rfl⟩
  · rintro ⟨ha, s, ts, hs, rfl, others, rfl⟩
    exact ⟨⟨ha, others⟩, by simp [hs]⟩

theorem exists_readStatement_of_mem_statements {table : FunctionTable α} {tokens : List Token}
    {s : Statement α} (h : s ∈ (parseTokens table tokens).statements) :
    ∃ first d, first :: d.rest <:+ tokens ∧ (readStatement table first d).1.statement = some s := by
  obtain ⟨a, ha, statement⟩ := List.mem_filterMap.1 h
  obtain ⟨first, d, later, rfl⟩ := exists_readStatement_of_mem ha
  exact ⟨first, d, later, statement⟩

theorem exists_readRule_of_mem {table : FunctionTable α} {tokens : List Token} {r : Rule}
    (h : r ∈ (parseTokens table tokens).document.rules) :
    ∃ c : Cursor, c.rest <:+ tokens ∧ (readRule c).result = .ok r := by
  obtain ⟨s, hs, rule⟩ := List.mem_filterMap.1 h
  obtain ⟨first, c, later, statement⟩ := exists_readStatement_of_mem_statements hs
  cases s with
  | definition => cases rule
  | rule q =>
    obtain rfl := Option.some.inj rule
    exact ⟨c, (List.suffix_cons _ _).trans later, (readStatement_eq_rule_iff.1 statement).2⟩

theorem exists_readDefinition_of_mem {table : FunctionTable α} {tokens : List Token}
    {v : Variable α} (h : v ∈ (parseTokens table tokens).document.definitions) :
    ∃ start, ∃ c : Cursor, c.rest <:+ tokens ∧ (readDefinition table start c).result = .ok v := by
  obtain ⟨s, hs, definition⟩ := List.mem_filterMap.1 h
  obtain ⟨first, c, later, statement⟩ := exists_readStatement_of_mem_statements hs
  cases s with
  | rule => cases definition
  | definition w =>
    obtain rfl := Option.some.inj definition
    exact ⟨_, c, (List.suffix_cons _ _).trans later,
      (readStatement_eq_definition_iff.1 statement).2⟩

theorem Parsing.errors_eq_nil_iff {p : Parsing α} :
    p.errors = [] ↔ ∀ a ∈ p.attempts, a.error = none := by
  simp [errors, List.filterMap_eq_nil_iff]

theorem Parsing.toExcept_eq_ok_iff {p : Parsing α} {d : Document α} :
    p.toExcept = .ok d ↔ p.errors = [] ∧ p.document = d := by
  unfold toExcept
  cases p.errors with
  | nil => simp
  | cons e errors => simp

theorem Parsing.rules_document (p : Parsing α) :
    p.document.rules = (p.statements.map (·.sentence)).filterMap (·.rule?) := by
  have same : (Statement.rule? : Statement α → Option Rule) = fun s => s.sentence.rule? := by
    funext s
    cases s <;> rfl
  rw [document, same, List.filterMap_map]
  rfl

theorem Parsing.definitions_document (p : Parsing α) :
    p.document.definitions.map (fun v => (v.name, v.terms)) =
      (p.statements.map (·.sentence)).filterMap (·.definition?) := by
  have same : (fun s : Statement α => s.definition?.map fun v => (v.name, v.terms)) =
      fun s => s.sentence.definition? := by
    funext s
    cases s <;> rfl
  rw [document, List.map_filterMap, same, List.filterMap_map]
  rfl

end FuzzyInference
