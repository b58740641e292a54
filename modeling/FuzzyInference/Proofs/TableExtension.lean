import FuzzyInference.Proofs.UnitInterval

/-!
# Larger function tables

A table of functions may be extended: whatever reads without an error reads in the same way with
more functions in the table.

* `Reply.Agrees`: a reply that is another one wherever that holds a value, with a lemma for every
  way to put readings together;
* `FunctionReader.Steady`: a reader that goes by its operands only where they hold values, as the
  built-in ones do;
* `FunctionTable.Extends`: a table that has the readers of another one under the same names;
* `agrees_readFuzzySet`, `agrees_readDefinition`, `readStatement_extended`: from one function up to
  a whole statement;
* `parse_extended`: sources.
-/

namespace FuzzyInference

variable {α β γ : Type}

/-! ## Replies -/

namespace Reply

variable {c d : Cursor}

/-- Where the reply `r` holds a value, `s` is the same reply. -/
def Agrees (s r : Reply c β) : Prop := ∀ v, r.result = .ok v → s = r

theorem Agrees.refl (r : Reply c β) : r.Agrees r := fun _ _ => rfl

theorem agrees_of_error {s r : Reply c β} {e : ParseError} (h : r.result = .error e) :
    s.Agrees r := by
  intro v hv
  rw [h] at hv
  cases hv

theorem Agrees.since {s r : Reply d β} (h : s.Agrees r) (later : d.Follows c) :
    (s.since later).Agrees (r.since later) := by
  intro v hv
  rw [h v hv]

theorem Agrees.map {s r : Reply c β} (h : s.Agrees r) (f : β → γ) :
    (s.map f).Agrees (r.map f) := by
  cases hr : r.result with
  | ok v =>
    rw [h v hr]
    exact .refl _
  | error e => exact agrees_of_error (e := e) (by rw [Reply.map, hr]; rfl)

theorem Agrees.andThen {s r : Reply c β} {f g : β → (d : Cursor) → d.Follows c → Reply d γ}
    (h : s.Agrees r) (behind : ∀ v d later, (f v d later).Agrees (g v d later)) :
    (s.andThen f).Agrees (r.andThen g) := by
  cases hr : r.result with
  | ok v =>
    rw [h v hr, andThen_ok hr, andThen_ok hr]
    exact (behind v _ _).since _
  | error e => exact agrees_of_error (e := e) (by rw [andThen_error hr])

end Reply

open Reply (agrees_of_error)

theorem Reading.agrees_bind {x y : Reading β} {f g : β → Reading γ} {c : Cursor}
    (h : (x c).Agrees (y c)) (behind : ∀ v d, (f v d).Agrees (g v d)) :
    ((x >>= f) c).Agrees ((y >>= g) c) :=
  h.andThen fun v d _ => behind v d

/-! ## Functions -/

/-- Operands that agree with the given ones where these hold values make no difference to a reply
that holds a value. -/
def FunctionReader.Steady (reader : FunctionReader α) : Prop :=
  ∀ (c : Cursor) (operand operand' : (d : Cursor) → d.Follows c → Reply d (FuzzySet α)),
    (∀ d later, (operand' d later).Agrees (operand d later)) →
      (reader c operand').Agrees (reader c operand)

/-- An error of the operand is an error of the function. -/
theorem BuiltIn.steady_readInverted : (readInverted : FunctionReader α).Steady := by
  intro c operand operand' agrees
  apply (Reply.Agrees.refl _).andThen
  intro _ d later
  apply (agrees d later).andThen
  intro m e _
  exact .refl _

theorem BuiltIn.steady_reader [Scalar α] (f : BuiltIn) : (f.reader : FunctionReader α).Steady := by
  cases f with
  | linear | triangular | trapezoid => exact fun c _ _ _ => .refl _
  | inverted => exact steady_readInverted

namespace FunctionTable

def Steady (table : FunctionTable α) : Prop :=
  ∀ word reader, table.find? word = some reader → reader.Steady

theorem steady_ofBuiltIns [Scalar α] (entries : List (String × BuiltIn)) :
    (ofBuiltIns entries : FunctionTable α).Steady := by
  intro word reader found
  rw [find?_ofBuiltIns, Option.map_eq_some_iff] at found
  obtain ⟨⟨-, f⟩, -, rfl⟩ := found
  exact f.steady_reader

/-- Whatever name is found in `table` is found in `table'`, with the same reader. -/
def Extends (table' table : FunctionTable α) : Prop :=
  ∀ word reader, table.find? word = some reader → table'.find? word = some reader

/-- What is put in first is out of the way of what comes behind it. -/
theorem extends_append [Scalar α] (front entries : List (String × BuiltIn)) :
    (ofBuiltIns (front ++ entries) : FunctionTable α).Extends (ofBuiltIns entries) := by
  intro word reader found
  rw [find?_ofBuiltIns, Option.map_eq_some_iff] at found
  obtain ⟨entry, last, rfl⟩ := found
  rw [find?_ofBuiltIns, List.reverse_append, List.find?_append, last]
  rfl

end FunctionTable

section

variable {table table' : FunctionTable α} (larger : table'.Extends table) (steady : table.Steady)

include larger steady

/-- Under the larger table fuzzy sets are read alike, however deep their functions stand in each
other. -/
theorem agrees_readFuzzySet (c : Cursor) :
    (readFuzzySet table' c).Agrees (readFuzzySet table c) := by
  induction hl : c.rest.length using Nat.strongRecOn generalizing c with
  | ind n ih =>
    cases hr : c.rest with
    | nil => exact agrees_of_error (by rw [readFuzzySet_nil hr]; rfl)
    | cons name ts =>
      cases found : table.find? name.text with
      | none => exact agrees_of_error (by rw [readFuzzySet_unknown hr found]; rfl)
      | some reader =>
        rw [readFuzzySet_known hr found, readFuzzySet_known hr (larger _ _ found)]
        apply Reply.Agrees.since
        apply steady _ _ found
        intro d later
        exact ih _ (hl ▸ later.length_lt (by simp [hr])) d rfl

/-! ## Definitions -/

theorem agrees_readTerm (c : Cursor) : (readTerm table' c).Agrees (readTerm table c) := by
  unfold readTerm
  refine Reading.agrees_bind (.refl _) fun _ c => ?_
  refine Reading.agrees_bind (.refl _) fun name c => ?_
  exact Reading.agrees_bind (agrees_readFuzzySet larger steady c) fun _ _ => .refl _

theorem agrees_readTerms (c : Cursor) : (readTerms table' c).Agrees (readTerms table c) := by
  induction hl : c.rest.length using Nat.strongRecOn generalizing c with
  | ind n ih =>
    by_cases hp : c.peekKind = some .closeParen
    · rw [readTerms_closeParen hp, readTerms_closeParen hp]
      exact .refl _
    · by_cases ht : c.peekKind = some .termWord
      · rw [readTerms_termWord ht, readTerms_termWord ht]
        apply (agrees_readTerm larger steady c).andThen
        intro term d later
        by_cases hc : d.peekKind = some .comma
        · rw [if_pos hc, if_pos hc]
          have others := ih _ (hl ▸ later.length_advance_lt hc) d.advance rfl
          exact (others.map _).since _
        · rw [if_neg hc, if_neg hc]
          exact .refl _
      · rw [readTerms_stray hp ht, readTerms_stray hp ht]
        exact .refl _

theorem agrees_readDefinition (start : Position) (c : Cursor) :
    (readDefinition table' start c).Agrees (readDefinition table start c) := by
  unfold readDefinition
  refine Reading.agrees_bind (.refl _) fun name c => ?_
  refine Reading.agrees_bind (.refl _) fun _ c => ?_
  exact Reading.agrees_bind (agrees_readTerms larger steady c) fun _ _ => .refl _

/-! ## Statements -/

/-- A statement without an error is read alike under the larger table. -/
theorem readStatement_extended {first : Token} {c : Cursor}
    (clean : (readStatement table first c).1.error = none) :
    readStatement table' first c = readStatement table first c := by
  by_cases define : first.kind = .defineWord
  · rw [readStatement_defineWord define] at clean ⊢
    rw [readStatement_defineWord define]
    cases hr : (readDefinition table first.position c).result with
    | ok v => rw [agrees_readDefinition larger steady _ c v hr]
    | error e =>
      rw [finishDefinition_error hr] at clean
      cases clean
  · by_cases hi : first.kind = .ifWord
    · rw [readStatement_ifWord hi, readStatement_ifWord hi]
    · rw [readStatement_other define hi, readStatement_other define hi]

theorem readStatements_extended {c : Cursor}
    (clean : ∀ a ∈ (readStatements table c).1, a.error = none) :
    readStatements table' c = readStatements table c := by
  -- Every statement uses up a token, so induct on how many are left.
  induction hl : c.rest.length using Nat.strongRecOn generalizing c with
  | ind n ih =>
    cases hr : c.rest with
    | nil => rw [readStatements_nil hr, readStatements_nil hr]
    | cons first ts =>
      rw [readStatements_cons hr, List.forall_mem_cons] at clean
      obtain ⟨one, others⟩ := clean
      have later := (readStatement table first c.advance).2.property
      have behind := ih _ (hl ▸ later.length_lt (by simp [hr])) others rfl
      rw [readStatements_cons hr, readStatements_cons hr,
        readStatement_extended larger steady one, behind]

theorem parseTokens_extended {tokens : List Token}
    (clean : (parseTokens table tokens).errors = []) :
    parseTokens table' tokens = parseTokens table tokens := by
  rw [Parsing.errors_eq_nil_iff, attempts_parseTokens] at clean
  rw [parseTokens, parseTokens, readStatements_extended larger steady clean]

end

/-- A table of built-in functions, under whatever names they were put in and however often, may be
exchanged for one in which all its names are found again with the same functions. A source without
errors stays without errors, and says the same. -/
theorem parse_extended [Scalar α] (entries entries' : List (String × BuiltIn))
    (larger : ∀ word reader,
      (FunctionTable.ofBuiltIns entries : FunctionTable α).find? word = some reader →
        (FunctionTable.ofBuiltIns entries').find? word = some reader)
    {source : String} {d : Document α}
    (clean : (parse (FunctionTable.ofBuiltIns entries) source).toExcept = .ok d) :
    (parse (FunctionTable.ofBuiltIns entries') source).toExcept = .ok d := by
  have noError := (Parsing.toExcept_eq_ok_iff.1 clean).1
  have steady : (FunctionTable.ofBuiltIns entries : FunctionTable α).Steady :=
    FunctionTable.steady_ofBuiltIns entries
  rw [parse, parseTokens_extended larger steady noError]
  exact clean

/-- The built-in functions under their own names, and what was put in before them under names of
which two only differ in case and one is the name of a function. -/
def overridden : List (String × BuiltIn) :=
  [("slope", .linear), ("Slope", .trapezoid), ("triangular", .inverted)] ++
    BuiltIn.all.map fun f => (f.name, f)

theorem parse_extended_overridden :
    (∀ word reader, (FunctionTable.standard : FunctionTable Exact).find? word = some reader →
      (FunctionTable.ofBuiltIns overridden).find? word = some reader) ∧
    (parse .standard outerPeakSource).toExcept = .ok outerPeakDocument ∧
    (parse (FunctionTable.ofBuiltIns overridden) outerPeakSource).toExcept =
      .ok outerPeakDocument := by
  have larger := FunctionTable.extends_append (α := Exact)
    [("slope", .linear), ("Slope", .trapezoid), ("triangular", .inverted)]
    (BuiltIn.all.map fun f => (f.name, f))
  have clean := toExcept_parse_of_derives derivesProgram_outerPeak
  rw [FunctionTable.standard] at clean ⊢
  rw [overridden]
  exact ⟨larger, clean, parse_extended _ _ larger clean⟩

end FuzzyInference
