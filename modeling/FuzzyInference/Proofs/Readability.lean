import FuzzyInference.Proofs.Acceptance
import FuzzyInference.Proofs.Printing

/-!
# What is read can be printed

Whatever else a source holds, errors or not, its rules and definitions have the form in which they
are read again from their own text.

* `readable_of_mem_rules`: rules, which no function plays a part in;
* `FunctionTable.Keeps`: tables of functions that keep a property of fuzzy sets, and
  `keeps_ofBuiltIns`: sets stay readable in the built-in functions, whatever their names;
* `FunctionTable.Keeps.readable_of_mem_definitions`: definitions;
* `ReadableDocument`: both, and `FunctionTable.Keeps.readableDocument`: a source gives no other
  document.
-/

namespace FuzzyInference

open Grammar

variable {α : Type}

theorem NamesIn.mono {ws us : List String} (h : NamesIn ws) (part : us ⊆ ws) : NamesIn us :=
  fun w hw => h w (part hw)

theorem NamesIn.of_suffix {tokens rest : List Token} (h : NamesIn (words tokens))
    (later : rest <:+ tokens) : NamesIn (words rest) :=
  h.mono (List.map_subset _ later.subset)

theorem namesIn_tokenize (source : String) : NamesIn (words (tokenize source)) := by
  intro w hw kind
  obtain ⟨t, ht, rfl⟩ := List.mem_map.1 hw
  exact isName_of_mem_tokenize ht kind

/-! ## Rules -/

theorem readable_of_readRule {c : Cursor} (names : NamesIn (words c.rest)) {r : Rule}
    {rest : List Token} (h : (readRule c).Yields r rest) :
    Readable r.premise ∧ IsName r.conclusion.variableName ∧ IsName r.conclusion.term := by
  unfold readRule at h
  obtain ⟨p, hp, h⟩ := Reading.yields_bind_iff.1 h
  obtain ⟨arrow, ts, hr, -, h⟩ := Reading.yields_expect_bind_iff.1 h
  obtain ⟨q, hq, h⟩ := Reading.yields_bind_iff.1 h
  obtain ⟨rfl, -⟩ := Reading.yields_pure_iff.1 h
  obtain ⟨used, hu, premise⟩ := yields_readPremise_iff.1 hp
  obtain ⟨us, hv, conclusion⟩ := yields_readProposition_iff.1 hq
  have before : used ⊆ c.rest := by
    rw [hu]
    exact List.subset_append_left _ _
  have behind : us ⊆ c.rest := by
    rw [hu, hr, show ts = us ++ _ from hv]
    intro t ht
    simp [ht]
  exact ⟨readable_of_derives premise (names.mono (List.map_subset _ before)),
    names_of_derivesProposition conclusion (names.mono (List.map_subset _ behind))⟩

/-- Every rule that is read of a source is readable, whatever functions there are and whatever the
errors. -/
theorem readable_of_mem_rules {table : FunctionTable α} {source : String} {r : Rule}
    (h : r ∈ (parse table source).document.rules) :
    Readable r.premise ∧ IsName r.conclusion.variableName ∧ IsName r.conclusion.term := by
  obtain ⟨c, later, read⟩ := exists_readRule_of_mem h
  exact readable_of_readRule ((namesIn_tokenize source).of_suffix later) (Reply.yields_next read)

/-! ## Functions -/

/-- What the reader makes of fuzzy sets with the property has it too. -/
def FunctionReader.Keeps (P : FuzzySet α → Prop) (reader : FunctionReader α) : Prop :=
  ∀ (c : Cursor) (operand : (d : Cursor) → d.Follows c → Reply d (FuzzySet α)),
    (∀ d later m rest, (operand d later).Yields m rest → P m) →
      ∀ m rest, (reader c operand).Yields m rest → P m

def FunctionTable.Keeps (P : FuzzySet α → Prop) (table : FunctionTable α) : Prop :=
  ∀ word reader, table.find? word = some reader → reader.Keeps P

/-- Reading goes through the readers of the table only, however deep. -/
theorem FunctionTable.Keeps.of_readFuzzySet {P : FuzzySet α → Prop} {table : FunctionTable α}
    (keeps : table.Keeps P) {c : Cursor} {m : FuzzySet α} {rest : List Token}
    (h : (readFuzzySet table c).Yields m rest) : P m := by
  induction hl : c.rest.length using Nat.strongRecOn generalizing c m rest with
  | ind n ih =>
    cases hr : c.rest with
    | nil =>
      rw [readFuzzySet_nil hr] at h
      exact absurd h Reply.not_yields_error
    | cons name ts =>
      cases found : table.find? name.text with
      | none =>
        rw [readFuzzySet_unknown hr found, Reply.yields_since_iff] at h
        exact absurd h Reply.not_yields_error
      | some reader =>
        rw [readFuzzySet_known hr found, Reply.yields_since_iff] at h
        refine keeps _ _ found _ _ ?_ m rest h
        intro d later k rest inner
        exact ih _ (hl ▸ later.length_lt (by simp [hr])) inner rfl

theorem BuiltIn.keeps_reader [Scalar α] (f : BuiltIn) :
    (f.reader : FunctionReader α).Keeps ReadableSet := by
  intro c operand inner m rest h
  cases f with
  | linear =>
    obtain ⟨xs, -, rfl⟩ := Reply.yields_map_iff.1 h
    exact readableSet_ramp _ _
  | triangular =>
    obtain ⟨xs, -, rfl⟩ := Reply.yields_map_iff.1 h
    exact .triangular _ _ _
  | trapezoid =>
    obtain ⟨xs, -, rfl⟩ := Reply.yields_map_iff.1 h
    exact .trapezoid _ _ _ _
  | inverted =>
    obtain ⟨-, -, h⟩ := Reply.yields_andThen_iff.1 h
    obtain ⟨k, hk, h⟩ := Reply.yields_andThen_iff.1 h
    obtain ⟨-, -, rfl⟩ := Reply.yields_map_iff.1 h
    exact .inverted (inner _ _ k _ hk)

theorem FunctionTable.keeps_ofBuiltIns [Scalar α] (entries : List (String × BuiltIn)) :
    (ofBuiltIns entries : FunctionTable α).Keeps ReadableSet := by
  intro word reader found
  rw [find?_ofBuiltIns, Option.map_eq_some_iff] at found
  obtain ⟨⟨-, f⟩, -, rfl⟩ := found
  exact f.keeps_reader

/-! ## Definitions -/

namespace FunctionTable.Keeps

variable [Scalar α] {table : FunctionTable α} {c : Cursor} {rest : List Token}

theorem readable_of_readTerm (keeps : table.Keeps ReadableSet) (names : NamesIn (words c.rest))
    {t : Term α} (h : (readTerm table c).Yields t rest) :
    IsName t.name ∧ ReadableSet t.fuzzySet := by
  unfold readTerm at h
  obtain ⟨mark, ts, hr, -, h⟩ := Reading.yields_expect_bind_iff.1 h
  obtain ⟨name, us, rfl, hn, h⟩ := Reading.yields_expect_bind_iff.1 h
  obtain ⟨m, hm, h⟩ := Reading.yields_bind_iff.1 h
  obtain ⟨rfl, -⟩ := Reading.yields_pure_iff.1 h
  rw [hr] at names
  exact ⟨names name.text (by simp) hn, keeps.of_readFuzzySet hm⟩

theorem readable_of_readTerms (keeps : table.Keeps ReadableSet) (names : NamesIn (words c.rest))
    {ts : List (Term α)} (h : (readTerms table c).Yields ts rest) :
    ∀ t ∈ ts, IsName t.name ∧ ReadableSet t.fuzzySet := by
  induction hl : c.rest.length using Nat.strongRecOn generalizing c ts with
  | ind n ih =>
    by_cases hp : c.peekKind = some .closeParen
    · rw [readTerms_closeParen hp] at h
      obtain ⟨rfl, -⟩ := Reply.yields_ok_iff.1 h
      nofun
    · by_cases ht : c.peekKind = some .termWord
      · obtain ⟨t, hy, ⟨hc, us, others, rfl⟩ | ⟨-, rfl, -⟩⟩ := (yields_readTerms_termWord ht).1 h
        · -- More terms behind the comma.
          have later := (readTerm table c).forward
          have behind := (readTerm table c).next.advance_follows.trans later
          exact List.forall_mem_cons.2 ⟨keeps.readable_of_readTerm names hy,
            ih _ (hl ▸ later.length_advance_lt hc) (names.of_suffix behind.rest) others rfl⟩
        · exact List.forall_mem_singleton.2 (keeps.readable_of_readTerm names hy)
      · rw [readTerms_stray hp ht] at h
        exact absurd h Reply.not_yields_error

theorem readable_of_readDefinition (keeps : table.Keeps ReadableSet)
    (names : NamesIn (words c.rest)) {start : Position} {v : Variable α}
    (h : (readDefinition table start c).Yields v rest) :
    IsName v.name ∧ ∀ t ∈ v.terms, IsName t.name ∧ ReadableSet t.fuzzySet := by
  unfold readDefinition at h
  obtain ⟨name, ts, hr, hn, h⟩ := Reading.yields_expect_bind_iff.1 h
  obtain ⟨first, us, rfl, -, h⟩ := Reading.yields_expect_bind_iff.1 h
  obtain ⟨terms, hy, h⟩ := Reading.yields_bind_iff.1 h
  obtain ⟨last, vs, -, -, h⟩ := Reading.yields_expect_bind_iff.1 h
  obtain ⟨e, xs, -, -, h⟩ := Reading.yields_expect_bind_iff.1 h
  rw [hr] at names
  cases made : Variable.ofTerms name.text terms with
  | error e => simp [made] at h
  | ok w =>
    simp only [made, Reading.yields_pure_iff] at h
    obtain ⟨rfl, -⟩ := h
    obtain ⟨named, rfl⟩ := Variable.ofTerms_eq_ok_iff.1 made
    rw [named]
    obtain ⟨named, others⟩ := namesIn_cons_iff.1 names
    exact ⟨named hn, keeps.readable_of_readTerms (namesIn_cons_iff.1 others).2 hy⟩

theorem readable_of_mem_definitions (keeps : table.Keeps ReadableSet) {source : String}
    {v : Variable α} (h : v ∈ (parse table source).document.definitions) :
    IsName v.name ∧ ∀ t ∈ v.terms, IsName t.name ∧ ReadableSet t.fuzzySet := by
  obtain ⟨start, c, later, read⟩ := exists_readDefinition_of_mem h
  exact keeps.readable_of_readDefinition ((namesIn_tokenize source).of_suffix later)
    (Reply.yields_next read)

end FunctionTable.Keeps

/-! ## Documents -/

/-- Rules and definitions with names, readable premises and readable fuzzy sets. -/
structure ReadableDocument [Scalar α] (d : Document α) : Prop where
  premise : ∀ r ∈ d.rules, Readable r.premise
  conclusion : ∀ r ∈ d.rules, IsName r.conclusion.variableName ∧ IsName r.conclusion.term
  name : ∀ v ∈ d.definitions, IsName v.name
  term : ∀ v ∈ d.definitions, ∀ t ∈ v.terms, IsName t.name
  fuzzySet : ∀ v ∈ d.definitions, ∀ t ∈ v.terms, ReadableSet t.fuzzySet

/-- Whatever is read of a source is readable, errors or not. -/
theorem FunctionTable.Keeps.readableDocument [Scalar α] {table : FunctionTable α}
    (keeps : table.Keeps ReadableSet) (source : String) :
    ReadableDocument (parse table source).document where
  premise _ hr := (readable_of_mem_rules hr).1
  conclusion _ hr := (readable_of_mem_rules hr).2
  name _ hv := (keeps.readable_of_mem_definitions hv).1
  term _ hv t ht := ((keeps.readable_of_mem_definitions hv).2 t ht).1
  fuzzySet _ hv t ht := ((keeps.readable_of_mem_definitions hv).2 t ht).2

end FuzzyInference
