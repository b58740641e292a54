import FuzzyInference.Proofs.Binary64Order
import FuzzyInference.Proofs.Flattening
import FuzzyInference.Proofs.SlotCatalogs

/-!
# Terms by place

A variable may keep the places of its terms by name, and its universe with them, both filled as the
terms are taken one after the other. Nothing tells it from a variable that searches its terms.

* `IsFirst`: the least or the greatest of several scalars. `Picks.isFirst_foldl`: what a minimum or
  a maximum picks of them;
* `TermIndex`, `IndexedVariable`: the places of the terms by name, and a variable that has them;
* `TermIndex.Holds`: the invariant. `TermIndex.Holds.foldlM_add`: what all terms make of it;
* `Variable.Reports`, `IndexedVariable.Mirrors`: what a variable of these terms says, and one that
  says the same;
* `variable_of_terms`: which lists of terms make a variable, and which.
-/

namespace FuzzyInference

open Scalar (Defined least greatest posInf negInf)

variable {α : Type} [Scalar α]

/-! ## The first of several scalars -/

/-- `a` is one of the values and no defined one stands before it. It is `last` where none of them is
defined. -/
structure IsFirst (precedes : α → α → Prop) (last : α) (values : List α) (a : α) : Prop where
  mem : (∃ b ∈ values, Defined b) → a ∈ values
  eq_last : (∀ b ∈ values, ¬ Defined b) → a = last
  precedes : ∀ b ∈ values, Defined b → precedes a b

section Firsts

variable {pick : α → α → α} {precedes : α → α → Prop} {last a b : α} {values others : List α}

theorem IsFirst.cases (first : IsFirst precedes last values a) : a ∈ values ∨ a = last := by
  by_cases reached : ∃ b ∈ values, Defined b
  · exact .inl (first.mem reached)
  · refine .inr (first.eq_last ?_)
    intro b member defined
    exact reached ⟨b, member, defined⟩

theorem Picks.refl (h : Picks pick precedes last) (ha : Defined a) : precedes a a :=
  (h.total ha ha).elim id id

/-- What is picked of two scalars comes before both. -/
theorem Picks.precedes_pick (h : Picks pick precedes last) (ha : Defined a) (b : α) :
    precedes (pick a b) a ∧ (Defined b → precedes (pick a b) b) := by
  by_cases hb : Defined b
  · by_cases ab : precedes a b
    · rw [h.first (.inl ab)]
      exact ⟨h.refl ha, fun _ => ab⟩
    · rw [h.second ab hb]
      exact ⟨(h.total ha hb).resolve_left ab, fun _ => h.refl hb⟩
  · rw [h.first (.inr hb)]
    exact ⟨h.refl ha, fun defined => absurd defined hb⟩

/-- One more value is picked over all others, or is passed over. -/
theorem IsFirst.concat (h : Picks pick precedes last) (first : IsFirst precedes last values a)
    (ha : Defined a) (b : α) : IsFirst precedes last (values ++ [b]) (pick a b) where
  mem := by
    rintro ⟨c, member, hc⟩
    by_cases hb : Defined b
    · by_cases ab : precedes a b
      · rw [h.first (.inl ab)]
        rcases first.cases with inside | rfl
        · exact List.mem_append_left [b] inside
        · rw [h.last_eq ab]
          exact List.mem_append_right values List.mem_cons_self
      · rw [h.second ab hb]
        exact List.mem_append_right values List.mem_cons_self
    · rw [h.first (.inr hb)]
      rcases List.mem_append.1 member with inside | same
      · exact List.mem_append_left [b] (first.mem ⟨c, inside, hc⟩)
      · rw [List.mem_singleton.1 same] at hc
        exact absurd hc hb
  eq_last none := by
    obtain ⟨others, hb⟩ := List.forall_mem_append.1 none
    rw [h.first (.inr (hb b List.mem_cons_self))]
    exact first.eq_last others
  precedes := by
    obtain ⟨fore, next⟩ := h.precedes_pick ha b
    refine List.forall_mem_append.2 ⟨?_, List.forall_mem_singleton.2 next⟩
    intro c member hc
    exact h.trans fore (first.precedes c member hc)

theorem Picks.isFirst_foldl (h : Picks pick precedes last) (values : List α) :
    IsFirst precedes last values (values.foldl pick last) := by
  induction values using List.reverseRecOn with
  | nil => exact ⟨by simp, fun _ => rfl, by simp⟩
  | append_singleton values b ih =>
    rw [List.foldl_append]
    exact ih.concat h (h.defined_foldl values) b

/-- The first of several values comes before the first of some of them. -/
theorem IsFirst.precedes_of_subset (h : Picks pick precedes last)
    (first : IsFirst precedes last values a) (ha : Defined a)
    (first' : IsFirst precedes last others b) (hb : Defined b) (inside : others ⊆ values) :
    precedes a b := by
  rcases first'.cases with member | rfl
  · exact first.precedes b (inside member) hb
  · rcases h.total ha hb with before | behind
    · exact before
    · rw [← h.last_eq behind]
      exact h.refl hb

/-- What is picked of some values in another order stands neither before it nor behind it. -/
theorem Picks.foldl_perm (h : Picks pick precedes last) (same : values.Perm others) :
    precedes (values.foldl pick last) (others.foldl pick last) ∧
      precedes (others.foldl pick last) (values.foldl pick last) := by
  have first (values : List α) := h.isFirst_foldl values
  have defined (values : List α) := h.defined_foldl values
  constructor
  · exact (first values).precedes_of_subset h (defined values) (first others) (defined others)
      same.symm.subset
  · exact (first others).precedes_of_subset h (defined others) (first values) (defined values)
      same.subset

end Firsts

namespace Range

/-- The ends of the range around several ranges are the minimum and the maximum of theirs. -/
theorem unionAll_ends (ranges : List (Range α)) :
    (unionAll ranges).low = (ranges.map (·.low)).foldl least posInf ∧
      (unionAll ranges).high = (ranges.map (·.high)).foldl greatest negInf := by
  rw [List.foldl_map, List.foldl_map]
  constructor
  · exact (List.foldl_hom Range.low fun _ _ => rfl).symm
  · exact (List.foldl_hom Range.high fun _ _ => rfl).symm

end Range

/-! ## Indices of terms -/

/-- The places of the terms that were taken so far, by name, and the least range around their
domains. -/
structure TermIndex (α : Type) where
  places : Std.TreeMap String Nat
  range : Range α

namespace TermIndex

def empty : TermIndex α := ⟨∅, Range.empty⟩

/-- The index with one more term and its place. -/
def extend (index : TermIndex α) (t : Term α) (place : Nat) : TermIndex α :=
  ⟨index.places.insert t.name place, index.range.union t.fuzzySet.domain⟩

/-- Takes a term and its place, unless the name of the term is taken. -/
def add (variableName : String) (index : TermIndex α) (t : Term α × Nat) :
    Except DuplicateTerm (TermIndex α) :=
  if t.1.name ∈ index.places then .error ⟨variableName, t.1.name⟩
  else .ok (index.extend t.1 t.2)

end TermIndex

structure IndexedVariable (α : Type) where
  name : String
  terms : List (Term α)
  index : TermIndex α

namespace IndexedVariable

/-- The variable with these terms, unless one of them has a name that is taken. -/
def ofTerms (name : String) (terms : List (Term α)) : Except DuplicateTerm (IndexedVariable α) :=
  (terms.zipIdx.foldlM (TermIndex.add name) .empty).map (⟨name, terms, ·⟩)

/-- The term at the place that stands behind the name. No answer is given if there is no such place
in the list. -/
def term? (v : IndexedVariable α) (name : String) : Option (Except LookupError (Term α)) :=
  match v.index.places[name]? with
  | some place => v.terms[place]?.map .ok
  | none => some (.error (.undefinedTerm v.name name))

end IndexedVariable

namespace TermIndex

variable {index : TermIndex α} {before : List (Term α)} {t : Term α} {name : String}

/-- The index holds these terms, under names of their own, and nothing else. -/
structure Holds (index : TermIndex α) (taken : List (Term α)) : Prop where
  names : (taken.map (·.name)).Nodup
  places : Indexes index.places Term.name taken.zipIdx
  range : index.range = .unionAll (taken.map (·.fuzzySet.domain))

theorem holds_empty : (empty : TermIndex α).Holds [] where
  names := List.nodup_nil
  places := indexes_empty
  range := rfl

omit [Scalar α] in
theorem map_name_zipIdx (terms : List (Term α)) :
    terms.zipIdx.map (·.1.name) = terms.map (·.name) := by
  have firsts : (terms.zipIdx.map Prod.fst).map Term.name = terms.map (·.name) := by
    rw [List.zipIdx_map_fst]
  rw [← firsts, List.map_map]
  rfl

theorem Holds.mem_places_iff (h : index.Holds before) :
    name ∈ index.places ↔ name ∈ before.map (·.name) := by
  rw [h.places.mem_iff, map_name_zipIdx]

theorem Holds.extend (h : index.Holds before) (free : t.name ∉ before.map (·.name)) :
    (index.extend t before.length).Holds (before ++ [t]) where
  names := by
    rw [List.map_append, List.map_singleton, ← List.concat_eq_append]
    exact h.names.concat free
  places := by
    rw [List.zipIdx_append, Nat.zero_add]
    apply h.places.insert
    rw [map_name_zipIdx]
    exact free
  range := by
    rw [TermIndex.extend, h.range, Range.unionAll, Range.unionAll, List.map_append,
      List.foldl_append]
    rfl

/-- The terms are all taken, or the first one is refused whose name stood there before. -/
theorem Holds.foldlM_add (h : index.Holds before) (name : String) (terms : List (Term α)) :
    (∃ next, (terms.zipIdx before.length).foldlM (add name) index = .ok next ∧
        next.Holds (before ++ terms)) ∨
      ∃ duplicate,
        firstRepeated? (before.map (·.name)).reverse (terms.map (·.name)) = some duplicate ∧
          (terms.zipIdx before.length).foldlM (add name) index = .error ⟨name, duplicate⟩ := by
  induction terms generalizing index before with
  | nil =>
    refine .inl ⟨index, rfl, ?_⟩
    rw [List.append_nil]
    exact h
  | cons t terms ih =>
    rw [List.zipIdx_cons, List.foldlM_cons, List.map_cons, firstRepeated?, add]
    by_cases taken : t.name ∈ before.map (·.name)
    · rw [if_pos (List.mem_reverse.2 taken), if_pos (h.mem_places_iff.2 taken)]
      exact .inr ⟨t.name, rfl, rfl⟩
    · rw [if_neg (mt List.mem_reverse.1 taken), if_neg (mt h.mem_places_iff.1 taken)]
      have step := ih (h.extend taken)
      rw [List.length_append, List.map_append, List.reverse_append, List.append_assoc] at step
      exact step

end TermIndex

/-! ## Variables -/

namespace Variable

variable {v w : Variable α} {name : String} {terms : List (Term α)}

/-- What a variable of that name with these terms says. -/
structure Reports (v : Variable α) (name : String) (terms : List (Term α)) : Prop where
  name : v.name = name
  terms : v.terms = terms
  found : ∀ n t, v.term n = .ok t ↔ t ∈ v.terms ∧ t.name = n
  missing : ∀ n e, v.term n = .error e ↔
    n ∉ v.terms.map (·.name) ∧ e = .undefinedTerm v.name n
  low : IsFirst (· ≤ ·) posInf (v.terms.map (·.fuzzySet.domain.low)) v.universeRange.low
  high : IsFirst (fun a b => b ≤ a) negInf (v.terms.map (·.fuzzySet.domain.high))
    v.universeRange.high

theorem universeRange_ends (v : Variable α) :
    v.universeRange.low = (v.terms.map (·.fuzzySet.domain.low)).foldl least posInf ∧
      v.universeRange.high = (v.terms.map (·.fuzzySet.domain.high)).foldl greatest negInf := by
  have ends := Range.unionAll_ends (v.terms.map (·.fuzzySet.domain))
  rw [List.map_map, List.map_map] at ends
  exact ends

section Ordered

variable [Scalar.Comparable α] (top : Defined (posInf : α)) (bottom : Defined (negInf : α))
include top bottom

theorem reports_of_ofTerms (made : ofTerms name terms = .ok v) : v.Reports name terms := by
  obtain ⟨named, same⟩ := ofTerms_eq_ok_iff.1 made
  obtain ⟨low, high⟩ := v.universeRange_ends
  refine ⟨named, same, fun _ _ => term_eq_ok_iff, fun _ _ => term_eq_error_iff, ?_, ?_⟩
  · rw [low]
    exact (picks_least top).isFirst_foldl _
  · rw [high]
    exact (picks_greatest bottom).isFirst_foldl _

/-- The universe does not depend on the order of the terms. -/
theorem universeRange_beq_of_perm (same : v.terms.Perm w.terms) :
    (v.universeRange == w.universeRange) = true := by
  obtain ⟨vlow, vhigh⟩ := v.universeRange_ends
  obtain ⟨wlow, whigh⟩ := w.universeRange_ends
  have beq : (v.universeRange == w.universeRange) =
      (v.universeRange.low == w.universeRange.low &&
        v.universeRange.high == w.universeRange.high) := rfl
  rw [beq, vlow, vhigh, wlow, whigh, Bool.and_eq_true, Scalar.Comparable.beq_iff,
    Scalar.Comparable.beq_iff]
  exact ⟨(picks_least top).foldl_perm (same.map _),
    ((picks_greatest bottom).foldl_perm (same.map _)).symm⟩

end Ordered

end Variable

namespace IndexedVariable

/-- The two say the same. All places in the index are in the list of terms. -/
structure Mirrors (w : IndexedVariable α) (v : Variable α) : Prop where
  name : w.name = v.name
  terms : w.terms = v.terms
  range : w.index.range = v.universeRange
  places : ∀ (n : String) (place : Nat), w.index.places[n]? = some place ↔
    ∃ t, w.terms[place]? = some t ∧ t.name = n
  term : ∀ n, w.term? n = some (v.term n)

end IndexedVariable

namespace TermIndex

variable {index : TermIndex α} {v : Variable α}

theorem Holds.place_iff (h : index.Holds v.terms) (n : String) (place : Nat) :
    index.places[n]? = some place ↔ ∃ t, v.terms[place]? = some t ∧ t.name = n := by
  simp only [h.places n place, List.mem_zipIdx_iff_getElem?]

theorem Holds.mirrors (h : index.Holds v.terms) :
    IndexedVariable.Mirrors ⟨v.name, v.terms, index⟩ v where
  name := rfl
  terms := rfl
  range := h.range
  places := h.place_iff
  term n := by
    unfold IndexedVariable.term?
    cases answer : v.term n with
    | ok t =>
      obtain ⟨member, named⟩ := Variable.term_eq_ok_iff.1 answer
      obtain ⟨place, there⟩ := List.mem_iff_getElem?.1 member
      have found := (h.place_iff n place).2 ⟨t, there, named⟩
      simp only [found, there, Option.map_some]
    | error e =>
      obtain ⟨other, rfl⟩ := Variable.term_eq_error_iff.1 answer
      have missing : index.places[n]? = none :=
        Std.TreeMap.getElem?_eq_none (mt h.mem_places_iff.1 other)
      simp only [missing]

end TermIndex

namespace IndexedVariable

variable {name : String} {terms : List (Term α)}

theorem ofTerms_cases (name : String) (terms : List (Term α)) :
    (∃ index, ofTerms name terms = .ok ⟨name, terms, index⟩ ∧ index.Holds terms) ∨
      ∃ duplicate, firstRepeated? [] (terms.map (·.name)) = some duplicate ∧
        ofTerms name terms = .error ⟨name, duplicate⟩ := by
  have filled := TermIndex.holds_empty.foldlM_add name terms
  rw [List.length_nil] at filled
  unfold ofTerms
  rcases filled with ⟨index, made, holds⟩ | ⟨duplicate, repeated, failed⟩
  · rw [made]
    exact .inl ⟨index, rfl, holds⟩
  · rw [failed]
    exact .inr ⟨duplicate, repeated, rfl⟩

theorem mirrors_of_ofTerms {v : Variable α} (made : Variable.ofTerms name terms = .ok v) :
    ∃ w, ofTerms name terms = .ok w ∧ w.Mirrors v := by
  obtain ⟨rfl, rfl⟩ := Variable.ofTerms_eq_ok_iff.1 made
  rcases ofTerms_cases v.name v.terms with ⟨index, made', holds⟩ | ⟨duplicate, repeated, -⟩
  · exact ⟨_, made', holds.mirrors⟩
  · rw [Variable.ofTerms_eq_error repeated] at made
    cases made

theorem ofTerms_eq_error {e : DuplicateTerm} (failed : Variable.ofTerms name terms = .error e) :
    ofTerms name terms = .error e := by
  rcases ofTerms_cases name terms with ⟨index, -, holds⟩ | ⟨duplicate, repeated, failed'⟩
  · obtain ⟨v, made⟩ := Variable.ofTerms_succeeds_iff.2 holds.names
    rw [made] at failed
    cases failed
  · rw [Variable.ofTerms_eq_error repeated] at failed
    rw [failed', Except.error.inj failed]

end IndexedVariable

/-- A list of terms makes a variable exactly if their names are distinct. Otherwise the first one
whose name stood there before is what it fails with.

The variable has the terms in their order. Every name finds its term, or none if there is none, and
the universe goes from the minimum to the maximum of the ends of the domains, whatever the order of
the terms. Without terms it is the empty range.

A variable that looks its terms up by place is built and fails in the same way. It says the same,
and no place leads out of the list. -/
theorem variable_of_terms [Scalar.Comparable α] (top : Defined (posInf : α))
    (bottom : Defined (negInf : α)) (name : String) (terms : List (Term α)) :
    ((∃ v, Variable.ofTerms name terms = .ok v) ↔ (terms.map (·.name)).Nodup) ∧
      (∀ e, Variable.ofTerms name terms = .error e ↔
        ∃ before t behind, terms = before ++ t :: behind ∧ (before.map (·.name)).Nodup ∧
          t.name ∈ before.map (·.name) ∧ e = ⟨name, t.name⟩) ∧
      (∀ v, Variable.ofTerms name terms = .ok v →
        v.Reports name terms ∧
          (terms = [] → v.universeRange = ⟨posInf, negInf⟩) ∧
          (∀ others : List (Term α), others.Perm terms →
            ∃ w, Variable.ofTerms name others = .ok w ∧
              (w.universeRange == v.universeRange) = true) ∧
          ∃ w, IndexedVariable.ofTerms name terms = .ok w ∧ w.Mirrors v) ∧
      ∀ e, Variable.ofTerms name terms = .error e →
        IndexedVariable.ofTerms name terms = .error e := by
  refine ⟨Variable.ofTerms_succeeds_iff, fun _ => Variable.ofTerms_eq_error_iff, ?_,
    fun _ => IndexedVariable.ofTerms_eq_error⟩
  intro v made
  obtain ⟨named, same⟩ := Variable.ofTerms_eq_ok_iff.1 made
  refine ⟨Variable.reports_of_ofTerms top bottom made, ?_, ?_,
    IndexedVariable.mirrors_of_ofTerms made⟩
  · intro empty
    rw [Variable.universeRange, same, empty]
    rfl
  · intro others perm
    have distinct : (others.map (·.name)).Nodup :=
      (perm.map (·.name)).nodup_iff.2 (same ▸ v.distinct)
    obtain ⟨w, made'⟩ := Variable.ofTerms_succeeds_iff.2 distinct
    obtain ⟨-, rfl⟩ := Variable.ofTerms_eq_ok_iff.1 made'
    exact ⟨w, made', Variable.universeRange_beq_of_perm top bottom (same ▸ perm)⟩

def coldTerm : Term Float :=
  ⟨"cold", .triangular (Scalar.ofNat 0) (Scalar.ofNat 5) (Scalar.ofNat 10)⟩

def hotTerm : Term Float := ⟨"hot", .linear (Scalar.ofNat 20) (Scalar.ofNat 5)⟩

/-- Two terms make a variable, and a third one under the name of the first is refused. -/
theorem variable_of_terms_repeated_name :
    (∃ v, Variable.ofTerms "heat" [coldTerm, hotTerm] = .ok v ∧
      v.Reports "heat" [coldTerm, hotTerm] ∧
      (v.universeRange == ⟨Scalar.ofNat 0, Scalar.ofNat 20⟩) = true ∧
      ∃ w, IndexedVariable.ofTerms "heat" [coldTerm, hotTerm] = .ok w ∧ w.Mirrors v) ∧
    Variable.ofTerms "heat" [coldTerm, hotTerm, coldTerm] = .error ⟨"heat", "cold"⟩ := by
  have top : Defined (posInf : Float) := by decide +kernel
  have bottom : Defined (negInf : Float) := by decide +kernel
  constructor
  · obtain ⟨distinct, -, made, -⟩ := variable_of_terms top bottom "heat" [coldTerm, hotTerm]
    obtain ⟨v, ok⟩ := distinct.2 (by decide)
    obtain ⟨reports, -, -, mirrors⟩ := made v ok
    refine ⟨v, ok, reports, ?_, mirrors⟩
    rw [Variable.universeRange, reports.terms]
    decide +kernel
  · obtain ⟨-, refused, -⟩ := variable_of_terms top bottom "heat" [coldTerm, hotTerm, coldTerm]
    exact (refused _).2 ⟨[coldTerm, hotTerm], coldTerm, [], rfl, by decide, by decide, rfl⟩

end FuzzyInference
