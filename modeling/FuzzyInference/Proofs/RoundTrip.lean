import FuzzyInference.Number.Binary64
import FuzzyInference.Proofs.Readability
import Mathlib.Data.List.Forall2

/-!
# Reading what was printed

* `Document.numbers`: the numbers of a document;
* `readableDocument_parse`: a source gives readable documents only, errors or not;
* `ReadableDocument.parse_text`: such a document is read again from its own text;
* `parse_text_document_parse`: what was read of a source, printed and read again, is the same.
-/

namespace FuzzyInference

open Grammar

variable {α : Type}

/-- The numbers of a document, in the order they are printed in. -/
def Document.numbers (d : Document α) : List α :=
  d.definitions.flatMap fun v => v.terms.flatMap fun t => t.fuzzySet.numbers

variable [Scalar α]

/-- Whatever is read of a source is readable, errors or not. -/
theorem readableDocument_parse (source : String) :
    ReadableDocument (parse .standard source : Parsing α).document :=
  (FunctionTable.keeps_ofBuiltIns _).readableDocument source

/-! ## What printing gives -/

/-- The statements of a document in the order they are printed in. -/
def Document.sentences (d : Document α) : List (Sentence α) :=
  d.definitions.map (fun v => .definition v.name v.terms) ++ d.rules.map .rule

omit [Scalar α] in
theorem Document.distinct_sentences (d : Document α) : ∀ s ∈ d.sentences, s.Distinct := by
  intro s hs
  rcases List.mem_append.1 hs with hs | hs
  · obtain ⟨v, -, rfl⟩ := List.mem_map.1 hs
    exact v.distinct
  · obtain ⟨r, -, rfl⟩ := List.mem_map.1 hs
    trivial

omit [Scalar α] in
theorem Document.filterMap_rule?_sentences (d : Document α) :
    d.sentences.filterMap (·.rule?) = d.rules := by
  rw [sentences, List.filterMap_append, List.filterMap_map, List.filterMap_map]
  have absent : List.filterMap (Sentence.rule? ∘ fun v : Variable α => .definition v.name v.terms)
      d.definitions = [] := List.filterMap_eq_nil_iff.2 fun _ _ => rfl
  rw [absent]
  exact List.filterMap_some

omit [Scalar α] in
theorem Document.filterMap_definition?_sentences (d : Document α) :
    d.sentences.filterMap (·.definition?) = d.definitions.map fun v => (v.name, v.terms) := by
  rw [sentences, List.filterMap_append, List.filterMap_map, List.filterMap_map]
  have absent : List.filterMap (Sentence.definition? ∘ (Sentence.rule : Rule → Sentence α))
      d.rules = [] := List.filterMap_eq_nil_iff.2 fun _ _ => rfl
  rw [absent, List.append_nil, ← List.filterMap_eq_map]
  rfl

omit [Scalar α] in
/-- A variable is its name and its terms. -/
theorem Variable.eq_of_map_eq {vs ws : List (Variable α)}
    (h : vs.map (fun v => (v.name, v.terms)) = ws.map fun v => (v.name, v.terms)) : vs = ws := by
  apply List.map_injective_iff.2 _ h
  intro v w same
  obtain ⟨name, terms⟩ := Prod.mk.inj same
  cases v
  cases w
  cases name
  cases terms
  rfl

/-- The document of a source without errors has the statements that the grammar derives. -/
theorem toExcept_parse_of_derives {source : String} {d : Document α}
    (program : DerivesProgram (lexemes source.toList) d.sentences) :
    (parse .standard source).toExcept = .ok d := by
  rw [← map_text_tokenize] at program
  obtain ⟨noError, same⟩ := parseTokens_accepts_iff.2 ⟨program, d.distinct_sentences⟩
  have rules := Parsing.rules_document (parseTokens (α := α) .standard (tokenize source))
  have definitions :=
    Parsing.definitions_document (parseTokens (α := α) .standard (tokenize source))
  rw [same, Document.filterMap_rule?_sentences] at rules
  rw [same, Document.filterMap_definition?_sentences] at definitions
  have document : (parseTokens .standard (tokenize source)).document = d := by
    have definitions := Variable.eq_of_map_eq definitions
    cases d
    exact congrArg₂ Document.mk rules definitions
  exact Parsing.toExcept_eq_ok_iff.2 ⟨noError, document⟩

variable [Literal α]

/-- The text of a readable document says its statements. -/
theorem ReadableDocument.writes {d : Document α} (h : ReadableDocument d)
    (reads : ∀ x ∈ d.numbers, ReadsBack x) :
    ∃ ws, Spells Anything d.text ws ∧ DerivesProgram ws d.sentences := by
  apply writesProgram
  apply List.rel_append
  · rw [List.forall₂_map_left_iff, List.forall₂_map_right_iff, List.forall₂_same]
    intro v hv
    have readsV : ∀ t ∈ v.terms, ∀ x ∈ t.fuzzySet.numbers, ReadsBack x := fun t ht x hx =>
      reads x (List.mem_flatMap.2 ⟨v, hv, List.mem_flatMap.2 ⟨t, ht, hx⟩⟩)
    have worded : ∀ t ∈ v.terms, t.fuzzySet.Worded := fun t ht => (h.fuzzySet v hv t ht).worded
    have same : v.terms.map Term.oriented = v.terms := by
      have each : ∀ t ∈ v.terms, t.oriented = id t := by
        intro t ht
        rw [Term.oriented, (h.fuzzySet v hv t ht).oriented_eq]
        rfl
      rw [List.map_congr_left each, List.map_id]
    have statement := writesStatement_definition (h.name v hv) (h.term v hv) worded readsV
    rwa [same] at statement
  · rw [List.forall₂_map_left_iff, List.forall₂_map_right_iff, List.forall₂_same]
    intro r hr
    exact writesStatement_rule (h.premise r hr) (h.conclusion r hr).1 (h.conclusion r hr).2

/-- A readable document is read again from its own text. -/
theorem ReadableDocument.parse_text {d : Document α} (h : ReadableDocument d)
    (reads : ∀ x ∈ d.numbers, ReadsBack x) : (parse .standard d.text).toExcept = .ok d := by
  obtain ⟨ws, spells, program⟩ := h.writes reads
  rw [← spells.lexemes_eq] at program
  exact toExcept_parse_of_derives program

/-- What was read of a source, errors or not, is read again from its own text without any error,
where its numbers are. -/
theorem parse_text_document_parse (source : String)
    (reads : ∀ x ∈ (parse .standard source : Parsing α).document.numbers, ReadsBack x) :
    (parse .standard (parse .standard source : Parsing α).document.text).toExcept =
      .ok (parse .standard source : Parsing α).document :=
  (readableDocument_parse source).parse_text reads

instance {x : Float} : Decidable (ReadsBack x) := inferInstanceAs (Decidable (_ = _))

/-- A document with a falling ramp, an inverted set and a negation of a negation. -/
def heating : Document Float where
  rules :=
    [⟨.all [.is ⟨"outside", "cold"⟩, .not (.not (.is ⟨"inside", "warm"⟩))], ⟨"valve", "open"⟩⟩]
  definitions :=
    [⟨"outside", [⟨"cold", .ramp 15 2.5⟩, ⟨"mild", .inverted (.trapezoid (-5) 5 10 20)⟩],
      by decide +kernel⟩]

theorem readableDocument_fallingRamp : ReadableDocument heating where
  premise := by
    intro r hr
    obtain rfl := List.mem_singleton.1 hr
    have cold : Readable (.is ⟨"outside", "cold"⟩) := .is (by decide +kernel) (by decide +kernel)
    have warm : Readable (.is ⟨"inside", "warm"⟩) := .is (by decide +kernel) (by decide +kernel)
    exact .all (by decide) (by simpa using ⟨cold, warm.not.not⟩) (by simp)
  conclusion := by decide +kernel
  name := by decide +kernel
  term := by decide +kernel
  fuzzySet := by
    intro v hv
    obtain rfl := List.mem_singleton.1 hv
    simpa [heating] using ⟨readableSet_ramp _ _, .inverted (.trapezoid _ _ _ _)⟩

/-- What is read of the text of `heating` is read again from its own text. -/
theorem parse_text_document_parse_falling_ramp :
    (parse .standard (parse .standard heating.text : Parsing Float).document.text).toExcept =
      .ok (parse .standard heating.text : Parsing Float).document := by
  have reads : ∀ x ∈ heating.numbers, ReadsBack x := by decide +kernel
  have same := Parsing.toExcept_eq_ok_iff.1 (readableDocument_fallingRamp.parse_text reads)
  exact parse_text_document_parse heating.text (by rw [same.2]; exact reads)

end FuzzyInference
