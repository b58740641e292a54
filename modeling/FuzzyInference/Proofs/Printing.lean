import FuzzyInference.Proofs.Grammar
import FuzzyInference.Proofs.Numerals

/-!
# What printed texts say

* `Readable`, `ReadableSet`: premises and fuzzy sets in the form that reading gives them;
* `readable_of_derives`, `readableSet_ramp`: premises that are derived and ramps have that form;
* `Readable.writes`: in that form a premise is derived from its own text;
* `FuzzySet.Worded.writes`: the text of any set of the functions that the language has, from which
  the set with its ramps the right way round is derived. A readable one is the same as that.
-/

namespace FuzzyInference

open Grammar

/-- The identifiers among some words can be names. -/
def NamesIn (ws : List String) : Prop :=
  ∀ w ∈ ws, TokenKind.ofText w = .identifier → IsName w

theorem namesIn_append_iff {ws us : List String} :
    NamesIn (ws ++ us) ↔ NamesIn ws ∧ NamesIn us := List.forall_mem_append

theorem namesIn_cons_iff {w : String} {ws : List String} :
    NamesIn (w :: ws) ↔ (TokenKind.ofText w = .identifier → IsName w) ∧ NamesIn ws :=
  List.forall_mem_cons

/-! ## Premises -/

/-- Premises with names, at least two operands to every node, and no node right inside one of its
own kind. -/
inductive Readable : Premise → Prop
  | is {p : Proposition} (variableName : IsName p.variableName) (term : IsName p.term) :
      Readable (.is p)
  | all {ps : List Premise} (two : 2 ≤ ps.length) (each : ∀ p ∈ ps, Readable p)
      (flat : ∀ p ∈ ps, ∀ qs, p ≠ .all qs) : Readable (.all ps)
  | any {ps : List Premise} (two : 2 ≤ ps.length) (each : ∀ p ∈ ps, Readable p)
      (flat : ∀ p ∈ ps, ∀ qs, p ≠ .any qs) : Readable (.any ps)
  | not {p : Premise} (operand : Readable p) : Readable (.not p)

theorem Readable.conjuncts {p : Premise} (h : Readable p) :
    0 < p.conjuncts.length ∧ ∀ q ∈ p.conjuncts, Readable q ∧ ∀ qs, q ≠ .all qs := by
  cases h with
  | all two each flat => exact ⟨by simp only [Premise.conjuncts]; omega,
      fun q hq => ⟨each q hq, flat q hq⟩⟩
  | is hv ht => exact ⟨Nat.one_pos, by simpa [Premise.conjuncts] using Readable.is hv ht⟩
  | any two each flat =>
    exact ⟨Nat.one_pos, by simpa [Premise.conjuncts] using Readable.any two each flat⟩
  | not operand => exact ⟨Nat.one_pos, by simpa [Premise.conjuncts] using Readable.not operand⟩

theorem Readable.disjuncts {p : Premise} (h : Readable p) :
    0 < p.disjuncts.length ∧ ∀ q ∈ p.disjuncts, Readable q ∧ ∀ qs, q ≠ .any qs := by
  cases h with
  | any two each flat => exact ⟨by simp only [Premise.disjuncts]; omega,
      fun q hq => ⟨each q hq, flat q hq⟩⟩
  | is hv ht => exact ⟨Nat.one_pos, by simpa [Premise.disjuncts] using Readable.is hv ht⟩
  | all two each flat =>
    exact ⟨Nat.one_pos, by simpa [Premise.disjuncts] using Readable.all two each flat⟩
  | not operand => exact ⟨Nat.one_pos, by simpa [Premise.disjuncts] using Readable.not operand⟩

theorem Readable.and {p q : Premise} (hp : Readable p) (hq : Readable q) : Readable (p.and q) := by
  obtain ⟨someP, eachP⟩ := hp.conjuncts
  obtain ⟨someQ, eachQ⟩ := hq.conjuncts
  have each : ∀ r ∈ p.conjuncts ++ q.conjuncts, Readable r ∧ ∀ qs, r ≠ .all qs :=
    List.forall_mem_append.2 ⟨eachP, eachQ⟩
  refine .all ?_ (fun r hr => (each r hr).1) fun r hr => (each r hr).2
  rw [List.length_append]
  omega

theorem Readable.or {p q : Premise} (hp : Readable p) (hq : Readable q) : Readable (p.or q) := by
  obtain ⟨someP, eachP⟩ := hp.disjuncts
  obtain ⟨someQ, eachQ⟩ := hq.disjuncts
  have each : ∀ r ∈ p.disjuncts ++ q.disjuncts, Readable r ∧ ∀ qs, r ≠ .any qs :=
    List.forall_mem_append.2 ⟨eachP, eachQ⟩
  refine .any ?_ (fun r hr => (each r hr).1) fun r hr => (each r hr).2
  rw [List.length_append]
  omega

theorem names_of_derivesProposition {ws : List String} {p : Proposition}
    (h : DerivesProposition ws p) (names : NamesIn ws) : IsName p.variableName ∧ IsName p.term := by
  cases h with
  | mk hn hi ht => exact ⟨names _ (by simp) hn, names _ (by simp) ht⟩

mutual

/-- Every premise that is derived is readable. -/
theorem readable_of_derives {ws : List String} {next : Option TokenKind} {p : Premise} :
    DerivesPremise ws next p → NamesIn ws → Readable p
  | .single operand _ _, names => readable_of_derivesOperand operand names
  | .and left _ right, names => by
    obtain ⟨before, behind⟩ := namesIn_append_iff.1 names
    exact (readable_of_derivesOperand left before).and
      (readable_of_derives right (namesIn_cons_iff.1 behind).2)
  | .or left _ right, names => by
    obtain ⟨before, behind⟩ := namesIn_append_iff.1 names
    exact (readable_of_derivesOperand left before).or
      (readable_of_derives right (namesIn_cons_iff.1 behind).2)

theorem readable_of_derivesOperand {ws : List String} {next : Option TokenKind} {p : Premise} :
    DerivesOperand ws next p → NamesIn ws → Readable p
  | .is proposition, names => by
    obtain ⟨hv, ht⟩ := names_of_derivesProposition proposition names
    exact .is hv ht
  | .group _ inner _, names =>
    readable_of_derives inner (namesIn_append_iff.1 (namesIn_cons_iff.1 names).2).1
  | .not _ operand _, names =>
    .not (readable_of_derivesOperand operand (namesIn_cons_iff.1 names).2)
  | .notRest _ premise _, names => .not (readable_of_derives premise (namesIn_cons_iff.1 names).2)

end

/-- The text says the premise, with anything but a further operand behind it. -/
def WritesPremise (text : String) (p : Premise) : Prop :=
  ∃ ws, Spells Boundary text ws ∧ ∀ next, next ≠ some .andWord → next ≠ some .orWord →
    DerivesPremise ws next p

/-- The text says the premise as one operand. -/
def WritesOperand (text : String) (p : Premise) : Prop :=
  ∃ ws, Spells Boundary text ws ∧ ∀ next, DerivesOperand ws next p

/-- The text says the premise as an operand that a `NOT` in front applies to alone. -/
def WritesPlain (text : String) (p : Premise) : Prop :=
  ∃ ws, Spells Boundary text ws ∧ StartsOperand ws ∧ ∀ next, DerivesOperand ws next p

theorem WritesPlain.operand {text : String} {p : Premise} (h : WritesPlain text p) :
    WritesOperand text p := by
  obtain ⟨ws, spells, -, derives⟩ := h
  exact ⟨ws, spells, derives⟩

theorem WritesOperand.premise {text : String} {p : Premise} (h : WritesOperand text p) :
    WritesPremise text p := by
  obtain ⟨ws, spells, derives⟩ := h
  exact ⟨ws, spells, fun next noAnd noOr => .single (derives next) noAnd noOr⟩

theorem Spells.weaken {text : String} {ws : List String} (h : Spells Anything text ws) :
    Spells Boundary text ws := fun rest _ => h rest trivial

theorem spells_openParen : Spells Anything "(" ["("] :=
  spells_literal "(" ["("] (by decide +kernel)

theorem spells_closeParen : Spells Anything ")" [")"] :=
  spells_literal ")" [")"] (by decide +kernel)

theorem spells_lineBreak : Spells Anything "\n" [] := spells_literal "\n" [] (by decide +kernel)

theorem writesProposition {p : Proposition} (variableName : IsName p.variableName)
    (term : IsName p.term) :
    ∃ ws, Spells Boundary p.text ws ∧ StartsOperand ws ∧ DerivesProposition ws p := by
  have is := spells_literal " IS " ["IS"] (by decide +kernel)
  refine ⟨[p.variableName, "IS", p.term], ?_, .inl ?_, ?_⟩
  · exact (variableName.spells.before is (by decide)).then term.spells
  · exact congrArg some variableName.kind
  · exact .is variableName.kind term.kind

/-- Parentheses make any premise a plain operand. -/
theorem WritesPremise.grouped {text : String} {p : Premise} (h : WritesPremise text p) :
    WritesPlain (Premise.grouped true text) p := by
  obtain ⟨ws, spells, derives⟩ := h
  have opens : TokenKind.ofText "(" = .openParen := TokenKind.ofText_text .openParen nofun
  refine ⟨["("] ++ ws ++ [")"], ?_, .inr (congrArg some opens), fun next => ?_⟩
  · exact ((spells_openParen.then spells).before spells_closeParen (by decide)).weaken
  · have inner := derives (some .closeParen) (by decide) (by decide)
    simpa using DerivesOperand.parens inner

theorem WritesPlain.negated {text : String} {p : Premise} (h : WritesPlain text p) :
    WritesOperand ("NOT " ++ text) (.not p) := by
  obtain ⟨ws, spells, start, derives⟩ := h
  have mark := spells_literal "NOT " ["NOT"] (by decide +kernel)
  exact ⟨["NOT"] ++ ws, mark.then spells, fun next => .notWord (derives next) start⟩

/-- Operands with the word of a node between them say the node, if none is such a node itself. -/
theorem writesPremise_joined {kind : TokenKind} {word separator : String}
    {node : List Premise → Premise} (join : Premise → Premise → Premise)
    (spells : Spells Anything separator [word]) (separates : Separates separator)
    (derives : ∀ {ws us next p q}, DerivesOperand ws (some kind) p → DerivesPremise us next q →
      DerivesPremise (ws ++ word :: us) next (join p q))
    (pair : ∀ p q, (∀ ps, p ≠ node ps) → (∀ ps, q ≠ node ps) → join p q = node [p, q])
    (more : ∀ p ps, (∀ qs, p ≠ node qs) → join p (node ps) = node (p :: ps))
    {text : Premise → String} {ps : List Premise} (two : 2 ≤ ps.length)
    (each : ∀ p ∈ ps, WritesOperand (text p) p) (flat : ∀ p ∈ ps, ∀ qs, p ≠ node qs) :
    WritesPremise (separator.intercalate (ps.map text)) (node ps) := by
  induction ps with
  | nil => simp at two
  | cons p rest ih =>
    obtain ⟨writesP, writesRest⟩ := List.forall_mem_cons.1 each
    obtain ⟨flatP, flatRest⟩ := List.forall_mem_cons.1 flat
    obtain ⟨ws, spellsP, derivesP⟩ := writesP
    have tail : ∃ q, WritesPremise (separator.intercalate (rest.map text)) q ∧
        join p q = node (p :: rest) := by
      match rest, writesRest, flatRest, ih with
      | [], _, _, _ => simp at two
      | [q], writesQ, flatQ, _ =>
        refine ⟨q, ?_, pair p q flatP (flatQ q (by simp))⟩
        rw [List.map_singleton, String.intercalate_singleton]
        exact (writesQ q (by simp)).premise
      | q :: r :: others, writesRest, flatRest, ih =>
        exact ⟨_, ih (by simp) writesRest flatRest, more p _ flatP⟩
    obtain ⟨q, ⟨us, spellsQ, derivesQ⟩, joined⟩ := tail
    have nonempty : rest.map text ≠ [] := by
      rintro he
      obtain rfl := List.map_eq_nil_iff.1 he
      simp at two
    rw [List.map_cons, String.intercalate_cons_of_ne_nil nonempty, ← joined]
    refine ⟨ws ++ [word] ++ us, (spellsP.before spells separates).then spellsQ, ?_⟩
    intro next noAnd noOr
    simpa using derives (derivesP _) (derivesQ next noAnd noOr)

theorem writesPremise_all {ps : List Premise} (two : 2 ≤ ps.length)
    (each : ∀ p ∈ ps, WritesOperand (Premise.grouped p.isCompound p.text) p)
    (flat : ∀ p ∈ ps, ∀ qs, p ≠ .all qs) : WritesPremise (Premise.all ps).text (.all ps) := by
  have conjuncts (p : Premise) (hp : ∀ qs, p ≠ .all qs) : p.conjuncts = [p] := by
    cases p with
    | all qs => exact absurd rfl (hp qs)
    | is | any | not => rfl
  rw [Premise.text, Premise.operandTexts_eq_map]
  have mark : TokenKind.ofText "AND" = .andWord := TokenKind.ofText_text .andWord nofun
  refine writesPremise_joined Premise.and (spells_literal " AND " ["AND"] (by decide +kernel))
    (by decide) (fun left right => .and left mark right) ?_ ?_ two each flat
  · intro p q hp hq
    rw [Premise.and, conjuncts p hp, conjuncts q hq]
    rfl
  · intro p qs hp
    rw [Premise.and, conjuncts p hp]
    rfl

theorem writesPremise_any {ps : List Premise} (two : 2 ≤ ps.length)
    (each : ∀ p ∈ ps, WritesOperand (Premise.grouped p.isCompound p.text) p)
    (flat : ∀ p ∈ ps, ∀ qs, p ≠ .any qs) : WritesPremise (Premise.any ps).text (.any ps) := by
  have disjuncts (p : Premise) (hp : ∀ qs, p ≠ .any qs) : p.disjuncts = [p] := by
    cases p with
    | any qs => exact absurd rfl (hp qs)
    | is | all | not => rfl
  rw [Premise.text, Premise.operandTexts_eq_map]
  have mark : TokenKind.ofText "OR" = .orWord := TokenKind.ofText_text .orWord nofun
  refine writesPremise_joined Premise.or (spells_literal " OR " ["OR"] (by decide +kernel))
    (by decide) (fun left right => .or left mark right) ?_ ?_ two each flat
  · intro p q hp hq
    rw [Premise.or, disjuncts p hp, disjuncts q hq]
    rfl
  · intro p qs hp
    rw [Premise.or, disjuncts p hp]
    rfl

/-- A readable premise is derived from its text: as a whole, as an operand, and behind `NOT`. -/
theorem Readable.writes {p : Premise} (h : Readable p) :
    WritesPremise p.text p ∧ WritesOperand (Premise.grouped p.isCompound p.text) p ∧
      WritesPlain (Premise.grouped p.needsGroupUnderNot p.text) p := by
  induction h with
  | @is p variableName term =>
    obtain ⟨ws, spells, start, derives⟩ := writesProposition variableName term
    have plain : WritesPlain p.text (.is p) := ⟨ws, spells, start, fun next => .is derives⟩
    exact ⟨plain.operand.premise, plain.operand, plain⟩
  | all two each flat ih =>
    have premise := writesPremise_all two (fun p hp => (ih p hp).2.1) flat
    exact ⟨premise, premise.grouped.operand, premise.grouped⟩
  | any two each flat ih =>
    have premise := writesPremise_any two (fun p hp => (ih p hp).2.1) flat
    exact ⟨premise, premise.grouped.operand, premise.grouped⟩
  | not operand ih =>
    have negated := ih.2.2.negated
    exact ⟨negated.premise, negated, negated.premise.grouped⟩

/-! ## Fuzzy sets -/

namespace FuzzySet

variable {α : Type}

mutual

def numbers : FuzzySet α → List α
  | .constant y => [y]
  | .linear a b => [a, b]
  | .triangular a b c => [a, b, c]
  | .trapezoid a b c d => [a, b, c, d]
  | .inverted m => m.numbers
  | .min ms => numbersOfList ms
  | .max ms => numbersOfList ms

def numbersOfList : List (FuzzySet α) → List α
  | [] => []
  | m :: ms => m.numbers ++ numbersOfList ms

end

variable [Scalar α]

/-- The set that is read of the text of one: every ramp is turned the right way round. -/
def oriented : FuzzySet α → FuzzySet α
  | .linear a b => .ramp a b
  | .inverted m => .inverted m.oriented
  | m => m

/-- A set of the functions that the language has, whatever their numbers. -/
inductive Worded : FuzzySet α → Prop
  | linear (a b : α) : Worded (.linear a b)
  | triangular (a b c : α) : Worded (.triangular a b c)
  | trapezoid (a b c d : α) : Worded (.trapezoid a b c d)
  | inverted {m : FuzzySet α} (inner : m.Worded) : Worded (.inverted m)

end FuzzySet

variable {α : Type} [Scalar α]

def Term.oriented (t : Term α) : Term α := ⟨t.name, t.fuzzySet.oriented⟩

/-- Fuzzy sets of the functions that the language has, with every ramp the right way round. -/
inductive ReadableSet : FuzzySet α → Prop
  | linear {a b : α} (ramp : FuzzySet.ramp a b = .linear a b) : ReadableSet (.linear a b)
  | triangular (a b c : α) : ReadableSet (.triangular a b c)
  | trapezoid (a b c d : α) : ReadableSet (.trapezoid a b c d)
  | inverted {m : FuzzySet α} (inner : ReadableSet m) : ReadableSet (.inverted m)

theorem ReadableSet.worded {m : FuzzySet α} (h : ReadableSet m) : m.Worded := by
  induction h with
  | linear => exact .linear _ _
  | triangular => exact .triangular _ _ _
  | trapezoid => exact .trapezoid _ _ _ _
  | inverted _ ih => exact .inverted ih

theorem ReadableSet.oriented_eq {m : FuzzySet α} (h : ReadableSet m) : m.oriented = m := by
  induction h with
  | linear ramp => exact ramp
  | triangular | trapezoid => rfl
  | inverted _ ih => rw [FuzzySet.oriented, ih]

/-- Whatever the order of its numbers, a ramp is read again from its own text. -/
theorem readableSet_ramp (a b : α) : ReadableSet (FuzzySet.ramp a b) := by
  by_cases hab : a < b
  · have up : FuzzySet.ramp a b = .linear a b := if_pos hab
    rw [up]
    exact .linear up
  · by_cases hba : b < a
    · have down : FuzzySet.ramp a b = .inverted (.linear b a) := by
        rw [FuzzySet.ramp, if_neg hab, if_pos hba]
      rw [down]
      exact .inverted (.linear (if_pos hba))
    · have flat : FuzzySet.ramp a b = .linear a a := by
        rw [FuzzySet.ramp, if_neg hab, if_neg hba, FuzzySet.step]
      rw [flat]
      refine .linear ?_
      by_cases haa : a < a
      · exact if_pos haa
      · rw [FuzzySet.ramp, if_neg haa, if_neg haa, FuzzySet.step]

variable [Literal α]

/-- The number is read again from its own text. -/
def ReadsBack (x : α) : Prop :=
  (Numeral.read? (Literal.write x)).map Scalar.ofNumeral = some x

theorem ReadsBack.writes {x : α} (h : ReadsBack x) :
    Spells Boundary (Literal.write x) [Literal.write x] ∧ DerivesNumber (Literal.write x) x := by
  obtain ⟨numeral, hn, hx⟩ := Option.map_eq_some_iff.1 h
  have name := isName_of_read? hn
  have number : DerivesNumber (Literal.write x) (Scalar.ofNumeral numeral : α) := .mk name.kind hn
  exact ⟨name.spells, hx ▸ number⟩

/-- Numbers are derived from their texts with commas between them. -/
theorem writesNumbers {xs : List α} (nonempty : xs ≠ []) (reads : ∀ x ∈ xs, ReadsBack x) :
    ∃ ws, Spells Boundary (", ".intercalate (xs.map Literal.write)) ws ∧ DerivesNumbers ws xs := by
  induction xs using List.reverseRecOn with
  | nil => contradiction
  | append_singleton xs x ih =>
    obtain ⟨readsXs, readsX⟩ := List.forall_mem_append.1 reads
    obtain ⟨spells, number⟩ := (readsX x (by simp)).writes
    rw [List.map_append, List.map_singleton]
    by_cases hx : xs = []
    · subst hx
      rw [List.map_nil, List.nil_append, String.intercalate_singleton]
      exact ⟨_, spells, .first number⟩
    · obtain ⟨ws, before, numbers⟩ := ih hx readsXs
      have comma := spells_literal ", " [","] (by decide +kernel)
      rw [String.intercalate_append_of_ne_nil (by simpa using hx) (by simp),
        String.intercalate_singleton]
      refine ⟨ws ++ [","] ++ [Literal.write x], (before.before comma (by decide)).then spells, ?_⟩
      simpa using numbers.comma hx number

/-- The text says the fuzzy set. -/
def WritesSet (text : String) (m : FuzzySet α) : Prop :=
  ∃ ws, Spells Anything text ws ∧ DerivesFuzzySet ws m

theorem spells_name (f : BuiltIn) : Spells Boundary f.name [f.name] := by
  have plain : CommentFree f.name.toList ∧ lexemes f.name.toList = [f.name] := by
    cases f <;> decide +kernel
  have spells := spells_of_commentFree plain.1
  rwa [plain.2] at spells

theorem ofText_name (f : BuiltIn) : TokenKind.ofText f.name = f.kind :=
  f.ofText_eq_kind_iff.2 f.toUpper_name

/-- A function with its numbers is derived from its text. -/
theorem writesSet_applied (f : BuiltIn) {xs : List α} {m : FuzzySet α} (made : Makes f xs m)
    (nonempty : xs ≠ []) (reads : ∀ x ∈ xs, ReadsBack x) :
    WritesSet (applied f.name (xs.map Literal.write)) m := by
  obtain ⟨ws, spells, numbers⟩ := writesNumbers nonempty reads
  refine ⟨[f.name] ++ ["("] ++ ws ++ [")"], ?_, ?_⟩
  · have opened := ((spells_name f).before spells_openParen (by decide)).then spells
    exact opened.before spells_closeParen (by decide)
  · simpa using DerivesFuzzySet.call (ofText_name f) (.parens numbers) made

/-- What is derived from the text of a set has every ramp the right way round. -/
theorem FuzzySet.Worded.writes {m : FuzzySet α} (h : m.Worded)
    (reads : ∀ x ∈ m.numbers, ReadsBack x) : WritesSet m.text m.oriented := by
  induction h with
  | linear a b =>
    rw [FuzzySet.text]
    rw [FuzzySet.numbers] at reads
    exact writesSet_applied .linear (.linear a b) (by simp) reads
  | triangular a b c =>
    rw [FuzzySet.text]
    rw [FuzzySet.numbers] at reads
    exact writesSet_applied .triangular (.triangular a b c) (by simp) reads
  | trapezoid a b c d =>
    rw [FuzzySet.text]
    rw [FuzzySet.numbers] at reads
    exact writesSet_applied .trapezoid (.trapezoid a b c d) (by simp) reads
  | inverted _ ih =>
    rw [FuzzySet.numbers] at reads
    obtain ⟨ws, spells, inner⟩ := ih reads
    refine ⟨[BuiltIn.inverted.name] ++ ["("] ++ ws ++ [")"], ?_, ?_⟩
    · rw [FuzzySet.text, applied, String.intercalate_singleton]
      have opened := ((spells_name .inverted).before spells_openParen (by decide)).then spells
      exact opened.then spells_closeParen
    · have opens : TokenKind.ofText "(" = .openParen := TokenKind.ofText_text .openParen nofun
      have closes : TokenKind.ofText ")" = .closeParen := TokenKind.ofText_text .closeParen nofun
      rw [FuzzySet.oriented]
      simpa using DerivesFuzzySet.inverted (ofText_name .inverted) opens inner closes

/-! ## Statements -/

/-- The text says the statement, with its semicolon. -/
def WritesStatement (text : String) (s : Sentence α) : Prop :=
  ∃ ws, Spells Anything text (ws ++ [";"]) ∧ DerivesBody ws s

omit [Literal α] in
theorem writesStatement_rule {r : Rule} (premise : Readable r.premise)
    (variableName : IsName r.conclusion.variableName) (term : IsName r.conclusion.term) :
    WritesStatement r.text (.rule r : Sentence α) := by
  obtain ⟨ws, spells, derives⟩ := premise.writes.1
  obtain ⟨us, spells', -, conclusion⟩ := writesProposition variableName term
  have mark := spells_literal "IF " ["IF"] (by decide +kernel)
  have arrow := spells_literal " THEN " ["THEN"] (by decide +kernel)
  have last := spells_literal ";" [";"] (by decide +kernel)
  refine ⟨["IF"] ++ ws ++ ["THEN"] ++ us, ?_, ?_⟩
  · exact (((mark.then spells).before arrow (by decide)).then spells').before last (by decide)
  · have premise := derives (some .thenWord) (by decide) (by decide)
    simpa using DerivesBody.ifThen (α := α) premise conclusion

theorem writesTerm {t : Term α} (name : IsName t.name) (fuzzySet : t.fuzzySet.Worded)
    (reads : ∀ x ∈ t.fuzzySet.numbers, ReadsBack x) :
    ∃ ws, Spells Anything ("\n    TERM " ++ t.name ++ " " ++ t.fuzzySet.text) ws ∧
      DerivesTerm ws t.oriented := by
  obtain ⟨ws, spells, derives⟩ := fuzzySet.writes reads
  have mark := spells_literal "\n    TERM " ["TERM"] (by decide +kernel)
  have blank := spells_literal " " [] (by decide +kernel)
  refine ⟨["TERM"] ++ [t.name] ++ [] ++ ws, ?_, ?_⟩
  · exact ((mark.then name.spells).before blank (by decide)).then spells
  · simpa [Term.oriented] using DerivesTerm.termWord name.kind derives

/-- Terms are derived from their texts with commas between them, and none behind the last. -/
theorem writesTerms {ts : List (Term α)} (names : ∀ t ∈ ts, IsName t.name)
    (sets : ∀ t ∈ ts, t.fuzzySet.Worded)
    (reads : ∀ t ∈ ts, ∀ x ∈ t.fuzzySet.numbers, ReadsBack x) :
    ∃ ws, Spells Anything
      (",".intercalate (ts.map fun t => "\n    TERM " ++ t.name ++ " " ++ t.fuzzySet.text)) ws ∧
        DerivesTerms ws (ts.map Term.oriented) := by
  induction ts with
  | nil => exact ⟨[], fun rest _ => rfl, .nil⟩
  | cons t rest ih =>
    obtain ⟨name, names⟩ := List.forall_mem_cons.1 names
    obtain ⟨fuzzySet, sets⟩ := List.forall_mem_cons.1 sets
    obtain ⟨readsT, reads⟩ := List.forall_mem_cons.1 reads
    obtain ⟨ws, spells, term⟩ := writesTerm name fuzzySet readsT
    obtain ⟨us, others, terms⟩ := ih names sets reads
    by_cases hr : rest = []
    · subst hr
      rw [List.map_singleton, String.intercalate_singleton]
      exact ⟨ws, spells, .last term⟩
    · have comma := spells_literal "," [","] (by decide +kernel)
      rw [List.map_cons, String.intercalate_cons_of_ne_nil (by simpa using hr)]
      refine ⟨ws ++ [","] ++ us, (spells.then comma).then others, ?_⟩
      simpa using DerivesTerms.comma term terms

theorem writesStatement_definition {v : Variable α} (name : IsName v.name)
    (names : ∀ t ∈ v.terms, IsName t.name) (sets : ∀ t ∈ v.terms, t.fuzzySet.Worded)
    (reads : ∀ t ∈ v.terms, ∀ x ∈ t.fuzzySet.numbers, ReadsBack x) :
    WritesStatement v.text (.definition v.name (v.terms.map Term.oriented)) := by
  obtain ⟨ws, spells, terms⟩ := writesTerms names sets reads
  have mark := spells_literal "DEFINE " ["DEFINE"] (by decide +kernel)
  have first := spells_literal " (" ["("] (by decide +kernel)
  have last := spells_literal ");" [")", ";"] (by decide +kernel)
  have lineBreak : Spells Anything (if v.terms.isEmpty then "" else "\n") [] := by
    split
    · exact fun rest _ => rfl
    · exact spells_lineBreak
  refine ⟨"DEFINE" :: v.name :: "(" :: (ws ++ [")"]), ?_, .define name.kind terms⟩
  have whole := ((((mark.then name.spells).before first (by decide)).then spells).then
    lineBreak).then last
  rw [Variable.text]
  simpa using whole

omit [Literal α] in
/-- Statements are derived from their texts with line breaks between them. -/
theorem writesProgram {texts : List String} {ss : List (Sentence α)}
    (h : List.Forall₂ WritesStatement texts ss) :
    ∃ ws, Spells Anything ("\n".intercalate texts) ws ∧ DerivesProgram ws ss := by
  induction h with
  | nil => exact ⟨[], fun rest _ => rfl, .nil⟩
  | @cons text s texts ss first others ih =>
    obtain ⟨ws, spells, body⟩ := first
    obtain ⟨us, spells', program⟩ := ih
    have whole := DerivesProgram.semicolon body program
    cases others with
    | nil =>
      cases program with
      | nil =>
        rw [String.intercalate_singleton]
        exact ⟨ws ++ [";"], spells, whole⟩
    | cons =>
      rw [String.intercalate_cons_of_ne_nil (by simp)]
      refine ⟨ws ++ [";"] ++ [] ++ us, (spells.then spells_lineBreak).then spells', ?_⟩
      simpa using whole

end FuzzyInference
