import FuzzyInference.FuzzySet.Text
import FuzzyInference.LookupError

/-!
# Linguistic variables

A variable has a name and terms, each a name for a fuzzy set. Its universe is the least range
around the domains of its terms.

* `Variable`: the terms stand in the order they were declared in, no two under one name;
* `Variable.ofTerms`: fails on the first term whose name is taken;
* `Variable.term`: looks a term up by name;
* `Variable.universeRange`: the universe;
* `Variable.text`: the statement of the rule language that declares the variable.
-/

namespace FuzzyInference

/-- Two terms of one variable share a name. -/
structure DuplicateTerm where
  variableName : String
  term : String
  deriving DecidableEq, Repr

def DuplicateTerm.message (e : DuplicateTerm) : String :=
  "term '" ++ e.term ++ "' already exists in variable '" ++ e.variableName ++ "'"

structure Term (α : Type) where
  name : String
  fuzzySet : FuzzySet α

instance {α : Type} [Scalar α] : BEq (Term α) where
  beq s t := s.name = t.name && s.fuzzySet == t.fuzzySet

/-- The first name that has been seen or has stood in the list before. -/
def firstRepeated? (seen : List String) : List String → Option String
  | [] => none
  | name :: names =>
    if name ∈ seen then some name else firstRepeated? (name :: seen) names

theorem firstRepeated?_eq_none_iff {seen names : List String} :
    firstRepeated? seen names = none ↔ names.Nodup ∧ ∀ name ∈ names, name ∉ seen := by
  induction names generalizing seen with
  | nil => simp [firstRepeated?]
  | cons name names ih =>
    by_cases taken : name ∈ seen
    · simp [firstRepeated?, taken]
    · simp only [firstRepeated?, taken, if_false, ih, List.nodup_cons, List.mem_cons]
      grind

theorem firstRepeated?_eq_some_iff {seen names : List String} {name : String} :
    firstRepeated? seen names = some name ↔ ∃ before behind, names = before ++ name :: behind ∧
      before.Nodup ∧ (∀ other ∈ before, other ∉ seen) ∧ (name ∈ seen ∨ name ∈ before) := by
  induction names generalizing seen with
  | nil => simp [firstRepeated?]
  | cons first names ih =>
    by_cases taken : first ∈ seen
    · rw [firstRepeated?, if_pos taken, Option.some.injEq]
      constructor
      · rintro rfl
        exact ⟨[], names, rfl, List.nodup_nil, nofun, .inl taken⟩
      · rintro ⟨before, behind, parts, -, free, -⟩
        cases before with
        | nil => exact (List.cons.inj parts).1
        | cons other before =>
          obtain ⟨rfl, -⟩ := List.cons.inj parts
          exact absurd taken (free first List.mem_cons_self)
    · rw [firstRepeated?, if_neg taken, ih]
      constructor
      · rintro ⟨before, behind, rfl, distinct, free, again⟩
        refine ⟨first :: before, behind, rfl, ?_, ?_, ?_⟩
        · exact List.nodup_cons.2 ⟨fun member => free first member List.mem_cons_self, distinct⟩
        · exact List.forall_mem_cons.2
            ⟨taken, fun other member seen => free other member (List.mem_cons_of_mem first seen)⟩
        · simp only [List.mem_cons] at again ⊢
          rcases again with (same | seen) | member
          · exact .inr (.inl same)
          · exact .inl seen
          · exact .inr (.inr member)
      · rintro ⟨before, behind, parts, distinct, free, again⟩
        cases before with
        | nil =>
          obtain ⟨rfl, -⟩ := List.cons.inj parts
          exact absurd again (by simp [taken])
        | cons other before =>
          obtain ⟨rfl, rfl⟩ := List.cons.inj parts
          obtain ⟨new, distinct⟩ := List.nodup_cons.1 distinct
          refine ⟨before, behind, rfl, distinct, ?_, ?_⟩
          · intro other member seen
            rcases List.mem_cons.1 seen with rfl | seen
            · exact new member
            · exact free other (List.mem_cons_of_mem first member) seen
          · simp only [List.mem_cons] at again ⊢
            rcases again with seen | same | member
            · exact .inl (.inr seen)
            · exact .inl (.inl same)
            · exact .inr member

/-- A variable. Its terms have names of their own. -/
structure Variable (α : Type) where
  name : String
  terms : List (Term α)
  distinct : (terms.map (·.name)).Nodup

instance {α : Type} [Scalar α] : BEq (Variable α) where
  beq v w := v.name = w.name && v.terms == w.terms

namespace Variable

variable {α : Type}

/-- The variable with these terms, unless two of them share a name. The error names the first
term, in order of declaration, whose name stood there before. -/
def ofTerms (name : String) (terms : List (Term α)) : Except DuplicateTerm (Variable α) :=
  match h : firstRepeated? [] (terms.map (·.name)) with
  | none => .ok ⟨name, terms, (firstRepeated?_eq_none_iff.mp h).1⟩
  | some term => .error ⟨name, term⟩

theorem ofTerms_eq_ok_iff {name : String} {terms : List (Term α)} {v : Variable α} :
    ofTerms name terms = .ok v ↔ v.name = name ∧ v.terms = terms := by
  unfold ofTerms
  constructor
  · intro h
    split at h
    · obtain rfl := Except.ok.inj h
      exact ⟨rfl, rfl⟩
    · cases h
  · rintro ⟨rfl, rfl⟩
    have free : firstRepeated? [] (v.terms.map (·.name)) = none :=
      firstRepeated?_eq_none_iff.2 ⟨v.distinct, by simp⟩
    split
    · rfl
    · next h => rw [free] at h; cases h

theorem ofTerms_eq_error {name duplicate : String} {terms : List (Term α)}
    (h : firstRepeated? [] (terms.map (·.name)) = some duplicate) :
    ofTerms name terms = .error ⟨name, duplicate⟩ := by
  unfold ofTerms
  split
  · next absent => simp [absent] at h
  · next again =>
    rw [h] at again
    rw [Option.some.inj again]

theorem ofTerms_succeeds_iff {name : String} {terms : List (Term α)} :
    (∃ v, ofTerms name terms = .ok v) ↔ (terms.map (·.name)).Nodup := by
  constructor
  · rintro ⟨v, made⟩
    obtain ⟨-, rfl⟩ := ofTerms_eq_ok_iff.1 made
    exact v.distinct
  · intro distinct
    exact ⟨⟨name, terms, distinct⟩, ofTerms_eq_ok_iff.2 ⟨rfl, rfl⟩⟩

/-- The first term whose name stood there before is what a list fails with. -/
theorem ofTerms_eq_error_iff {name : String} {terms : List (Term α)} {e : DuplicateTerm} :
    ofTerms name terms = .error e ↔
      ∃ before t behind, terms = before ++ t :: behind ∧ (before.map (·.name)).Nodup ∧
        t.name ∈ before.map (·.name) ∧ e = ⟨name, t.name⟩ := by
  constructor
  · intro failed
    unfold ofTerms at failed
    split at failed
    · cases failed
    · next duplicate repeated =>
      obtain rfl := Except.error.inj failed
      obtain ⟨names, later, parts, distinct, -, again⟩ := firstRepeated?_eq_some_iff.1 repeated
      obtain ⟨before, rest, rfl, rfl, others⟩ := List.map_eq_append_iff.1 parts
      obtain ⟨t, behind, rfl, rfl, rfl⟩ := List.map_eq_cons_iff.1 others
      exact ⟨before, t, behind, rfl, distinct, again.resolve_left List.not_mem_nil, rfl⟩
  · rintro ⟨before, t, behind, rfl, distinct, again, rfl⟩
    apply ofTerms_eq_error
    rw [firstRepeated?_eq_some_iff, List.map_append, List.map_cons]
    exact ⟨_, _, rfl, distinct, by simp, .inr again⟩

def term (v : Variable α) (name : String) : Except LookupError (Term α) :=
  match v.terms.find? (·.name = name) with
  | some t => .ok t
  | none => .error (.undefinedTerm v.name name)

/-- The least range around the domains of the terms. Without terms, the empty range. -/
def universeRange [Scalar α] (v : Variable α) : Range α :=
  Range.unionAll (v.terms.map (·.fuzzySet.domain))

/-- The declaration of the variable: a line of its own for every term, with commas between. -/
def text [Literal α] (v : Variable α) : String :=
  let lines := v.terms.map fun t => "\n    TERM " ++ t.name ++ " " ++ t.fuzzySet.text
  "DEFINE " ++ v.name ++ " (" ++ ",".intercalate lines ++
    (if v.terms.isEmpty then "" else "\n") ++ ");"

end Variable

end FuzzyInference
