import FuzzyInference.Proofs.Binary64Order
import FuzzyInference.Proofs.CrispValues
import FuzzyInference.Proofs.Domains
import FuzzyInference.Proofs.FiniteDegrees
import FuzzyInference.Proofs.Readability
import FuzzyInference.Proofs.RoundTrip

/-!
# What a universe covers

The universe of a variable starts where the first domain of its terms does and ends where the last
one does. A triangle and a trapezoid have their domain from the first parameter to the last one,
whatever their order, so that parameters may lie outside.

* `Scalar.Measured`: finite scalars are defined;
* `Range.low_unionAll_le_iff`, `Range.le_high_unionAll_iff`: the ends of the least range around
  several ranges;
* `Variable.Covers`: the universe has its ends the right way round and all parameters between them;
* `covers_iff`: when that is so;
* `covers_iff_of_read`: definitions in a source.
-/

namespace FuzzyInference

open Scalar (Defined least greatest least_eq_or greatest_eq_or)

/-- A finite scalar is no undefined result. -/
class Scalar.Measured (α : Type) [Scalar α] : Prop extends Scalar.Comparable α where
  defined_of_isFinite : ∀ {a : α}, Scalar.isFinite a = true → Defined a

instance : Scalar.Measured Exact where
  defined_of_isFinite h := Exact.beq_iff.2 ⟨Exact.defined_of_isFinite h, rfl⟩

instance : Scalar.Measured Float where
  defined_of_isFinite := by
    intro a h
    have number : a.toModel.unpack.isFinite = true := h
    rw [Binary64.defined_iff, Binary64.order?]
    cases hu : a.toModel.unpack with
    | notANumber => simp [hu, Float.Model.UnpackedFloat.isFinite] at number
    | infinity s => cases s <;> exact ⟨_, rfl⟩
    | zero s => exact ⟨_, rfl⟩
    | finite s m e hm => cases s <;> exact ⟨_, rfl⟩

variable {α : Type} [Scalar α]

section

variable [Scalar.Comparable α] {a b x : α}

theorem least_le_iff (ha : Defined a) (hb : Defined b) : least a b ≤ x ↔ a ≤ x ∨ b ≤ x := by
  obtain ⟨one, first, second⟩ := least_cases ha hb
  constructor
  · intro h
    rcases one with same | same
    · exact .inl (same ▸ h)
    · exact .inr (same ▸ h)
  · rintro (h | h)
    · exact Scalar.Ordered.le_trans first h
    · exact Scalar.Ordered.le_trans second h

theorem le_greatest_iff (ha : Defined a) (hb : Defined b) : x ≤ greatest a b ↔ x ≤ a ∨ x ≤ b := by
  obtain ⟨one, first, second⟩ := greatest_cases ha hb
  constructor
  · intro h
    rcases one with same | same
    · exact .inl (same ▸ h)
    · exact .inr (same ▸ h)
  · rintro (h | h)
    · exact Scalar.Ordered.le_trans h first
    · exact Scalar.Ordered.le_trans h second

/-! ## Ranges -/

namespace Range

/-- Neither end is an undefined result. The ends may be either way round. -/
structure HasEnds (r : Range α) : Prop where
  low : Defined r.low
  high : Defined r.high

variable {r s : Range α} {ranges : List (Range α)}

theorem HasEnds.union (hr : r.HasEnds) (hs : s.HasEnds) : (r.union s).HasEnds where
  low := (Scalar.Ordered.defined_of_le (least_cases hr.low hs.low).2.1).1
  high := (Scalar.Ordered.defined_of_le (greatest_cases hr.high hs.high).2.1).2

theorem low_foldl_union_le_iff (hr : r.HasEnds) (each : ∀ s ∈ ranges, s.HasEnds) :
    (ranges.foldl union r).low ≤ x ↔ r.low ≤ x ∨ ∃ s ∈ ranges, s.low ≤ x := by
  induction ranges generalizing r with
  | nil => simp
  | cons s ranges ih =>
    rw [List.forall_mem_cons] at each
    obtain ⟨hs, others⟩ := each
    rw [List.foldl_cons, ih (hr.union hs) others, union, least_le_iff hr.low hs.low,
      List.exists_mem_cons_iff, or_assoc]

theorem le_high_foldl_union_iff (hr : r.HasEnds) (each : ∀ s ∈ ranges, s.HasEnds) :
    x ≤ (ranges.foldl union r).high ↔ x ≤ r.high ∨ ∃ s ∈ ranges, x ≤ s.high := by
  induction ranges generalizing r with
  | nil => simp
  | cons s ranges ih =>
    rw [List.forall_mem_cons] at each
    obtain ⟨hs, others⟩ := each
    rw [List.foldl_cons, ih (hr.union hs) others, union, le_greatest_iff hr.high hs.high,
      List.exists_mem_cons_iff, or_assoc]

theorem low_unionAll_le_iff (nonempty : ranges ≠ []) (each : ∀ s ∈ ranges, s.HasEnds) :
    (unionAll ranges).low ≤ x ↔ ∃ s ∈ ranges, s.low ≤ x := by
  cases ranges with
  | nil => exact absurd rfl nonempty
  | cons r ranges =>
    rw [List.forall_mem_cons] at each
    obtain ⟨hr, others⟩ := each
    rw [unionAll_cons hr.low hr.high, low_foldl_union_le_iff hr others, List.exists_mem_cons_iff]

theorem le_high_unionAll_iff (nonempty : ranges ≠ []) (each : ∀ s ∈ ranges, s.HasEnds) :
    x ≤ (unionAll ranges).high ↔ ∃ s ∈ ranges, x ≤ s.high := by
  cases ranges with
  | nil => exact absurd rfl nonempty
  | cons r ranges =>
    rw [List.forall_mem_cons] at each
    obtain ⟨hr, others⟩ := each
    rw [unionAll_cons hr.low hr.high, le_high_foldl_union_iff hr others, List.exists_mem_cons_iff]

end Range

/-! ## Fuzzy sets -/

namespace FuzzySet

variable {m : FuzzySet α} {ms : List (FuzzySet α)}

/-- The domain of an orderly fuzzy set contains all its parameters. -/
theorem Orderly.contains_numbers (h : m.Orderly) :
    ∀ x ∈ m.numbers, m.domain.low ≤ x ∧ x ≤ m.domain.high := by
  induction h with
  | constant defined =>
    rw [numbers, domain]
    exact List.forall_mem_singleton.2 ⟨defined.le_refl, defined.le_refl⟩
  | linear foot top =>
    obtain ⟨-, low, low'⟩ := least_cases foot top
    obtain ⟨-, high, high'⟩ := greatest_cases foot top
    rw [numbers, domain]
    simpa using ⟨⟨low, high⟩, low', high'⟩
  | @triangular a b c hab hbc =>
    have hac := Scalar.Ordered.le_trans hab hbc
    have left := (Scalar.Ordered.defined_of_le hab).1.le_refl
    have right := (Scalar.Ordered.defined_of_le hbc).2.le_refl
    rw [numbers, domain]
    simpa using ⟨⟨left, hac⟩, ⟨hab, hbc⟩, hac, right⟩
  | @trapezoid a b c d hab hbc hcd =>
    have hac := Scalar.Ordered.le_trans hab hbc
    have hbd := Scalar.Ordered.le_trans hbc hcd
    have had := Scalar.Ordered.le_trans hac hcd
    have left := (Scalar.Ordered.defined_of_le hab).1.le_refl
    have right := (Scalar.Ordered.defined_of_le hcd).2.le_refl
    rw [numbers, domain]
    simpa using ⟨⟨left, had⟩, ⟨hab, hbd⟩, ⟨hac, hcd⟩, had, right⟩
  | inverted _ ih => rwa [numbers, domain]
  | min _ each ih | max _ each ih =>
    rw [numbers, domain]
    intro x hx
    rw [numbersOfList_eq_flatMap] at hx
    obtain ⟨m, hm, hx⟩ := List.mem_flatMap.1 hx
    have inside := within_unionAll_domains (fun m hm => (each m hm).domain_ordered) m hm
    exact ⟨Scalar.Ordered.le_trans inside.low (ih m hm x hx).1,
      Scalar.Ordered.le_trans (ih m hm x hx).2 inside.high⟩

end FuzzySet

omit [Scalar.Comparable α] in
/-- The ends of the domain of what is read are among its parameters. -/
theorem ReadableSet.ends_mem {m : FuzzySet α} (h : ReadableSet m) :
    m.domain.low ∈ m.numbers ∧ m.domain.high ∈ m.numbers := by
  induction h with
  | @linear a b _ =>
    rw [FuzzySet.numbers, FuzzySet.domain]
    constructor
    · rcases least_eq_or a b with same | same <;> simp [same]
    · rcases greatest_eq_or a b with same | same <;> simp [same]
  | triangular | trapezoid => simp [FuzzySet.numbers, FuzzySet.domain]
  | inverted _ ih => rwa [FuzzySet.numbers, FuzzySet.domain]

/-! ## Variables -/

namespace Variable

variable {v : Variable α}

/-- The universe has its ends the right way round, and all the parameters of the terms lie between
them. -/
structure Covers (v : Variable α) : Prop where
  ordered : v.universeRange.low ≤ v.universeRange.high
  numbers : ∀ t ∈ v.terms, ∀ x ∈ t.fuzzySet.numbers,
    v.universeRange.low ≤ x ∧ x ≤ v.universeRange.high

theorem covers_iff (nonempty : v.terms ≠ []) (read : ∀ t ∈ v.terms, ReadableSet t.fuzzySet)
    (defined : ∀ t ∈ v.terms, ∀ x ∈ t.fuzzySet.numbers, Defined x) :
    v.Covers ↔ ∀ t ∈ v.terms, ∀ x ∈ t.fuzzySet.numbers,
      (∃ s ∈ v.terms, s.fuzzySet.domain.low ≤ x) ∧ ∃ s ∈ v.terms, x ≤ s.fuzzySet.domain.high := by
  have ends : ∀ r ∈ v.terms.map (·.fuzzySet.domain), r.HasEnds := by
    refine List.forall_mem_map.2 fun t ht => ⟨?_, ?_⟩
    · exact defined t ht _ (read t ht).ends_mem.1
    · exact defined t ht _ (read t ht).ends_mem.2
  have domains : v.terms.map (·.fuzzySet.domain) ≠ [] := by simpa using nonempty
  have low (x : α) : v.universeRange.low ≤ x ↔ ∃ s ∈ v.terms, s.fuzzySet.domain.low ≤ x := by
    rw [universeRange, Range.low_unionAll_le_iff domains ends]
    simp
  have high (x : α) : x ≤ v.universeRange.high ↔ ∃ s ∈ v.terms, x ≤ s.fuzzySet.domain.high := by
    rw [universeRange, Range.le_high_unionAll_iff domains ends]
    simp
  simp only [← low, ← high]
  constructor
  · exact Covers.numbers
  · intro inside
    obtain ⟨t, ht⟩ := List.exists_mem_of_ne_nil v.terms nonempty
    obtain ⟨first, last⟩ := inside t ht _ (read t ht).ends_mem.1
    exact ⟨Scalar.Ordered.le_trans first last, inside⟩

end Variable

end

/-- The universe of a variable that a source defines with at least one term and with finite numbers
covers all parameters exactly when none of them stands before all the domains or behind all of them.
In particular it does when the parameters of the triangles and the trapezoids are in order, whatever
the order of those of the ramps. The names of the functions play no part. -/
theorem covers_iff_of_read [Scalar.Measured α] (entries : List (String × BuiltIn)) (source : String)
    (v : Variable α)
    (h : v ∈ (parse (FunctionTable.ofBuiltIns entries) source).document.definitions)
    (nonempty : v.terms ≠ [])
    (numbers : ∀ t ∈ v.terms, ∀ x ∈ t.fuzzySet.numbers, Scalar.isFinite x = true) :
    (v.Covers ↔ ∀ t ∈ v.terms, ∀ x ∈ t.fuzzySet.numbers,
      (∃ s ∈ v.terms, s.fuzzySet.domain.low ≤ x) ∧
        ∃ s ∈ v.terms, x ≤ s.fuzzySet.domain.high) ∧
    ((∀ t ∈ v.terms, t.fuzzySet.Orderly) → v.Covers) := by
  have keeps := FunctionTable.keeps_ofBuiltIns (α := α) entries
  have read := fun t ht => ((keeps.readable_of_mem_definitions h).2 t ht).2
  have defined := fun t ht x hx => Scalar.Measured.defined_of_isFinite (numbers t ht x hx)
  have exactly := Variable.covers_iff nonempty read defined
  refine ⟨exactly, ?_⟩
  intro orderly
  rw [exactly]
  intro t ht x hx
  obtain ⟨first, last⟩ := (orderly t ht).contains_numbers x hx
  exact ⟨⟨t, ht, first⟩, t, ht, last⟩

theorem covers_iff_of_read_ramp :
    ∃ v ∈ (parse .standard rampSource : Parsing Exact).document.definitions,
      v.terms ≠ [] ∧ (∀ t ∈ v.terms, ∀ x ∈ t.fuzzySet.numbers, Scalar.isFinite x = true) ∧
      (∀ t ∈ v.terms, t.fuzzySet.Orderly) ∧ v.Covers := by
  have document := (Parsing.toExcept_eq_ok_iff.1 (toExcept_parse_of_derives derivesProgram_ramp)).2
  rw [FunctionTable.standard] at document ⊢
  obtain ⟨v, member, nonempty, numbers, orderly⟩ : ∃ v ∈ rampDocument.definitions, v.terms ≠ [] ∧
      (∀ t ∈ v.terms, ∀ x ∈ t.fuzzySet.numbers, Scalar.isFinite x = true) ∧
      ∀ t ∈ v.terms, t.fuzzySet.Orderly := by
    refine ⟨_, List.mem_singleton.2 rfl, by simp, ?_, ?_⟩
    · rw [List.forall_mem_singleton]
      decide +kernel
    · rw [List.forall_mem_singleton]
      exact .linear (by decide +kernel) (by decide +kernel)
  rw [← document] at member
  have covers := (covers_iff_of_read _ rampSource v member nonempty numbers).2 orderly
  exact ⟨v, member, nonempty, numbers, orderly, covers⟩

section Reversed

open Grammar

/-- A triangle with its parameters from right to left. -/
def reversedSource : String := "DEFINE v (TERM t TRIANGULAR(10, 5, 0));"

def reversedTerm : Term Float :=
  ⟨"t", .triangular (Scalar.ofNumeral (.decimal false 10 0)) (Scalar.ofNumeral (.decimal false 5 0))
    (Scalar.ofNumeral (.decimal false 0 0))⟩

def reversedDocument : Document Float := ⟨[], [⟨"v", [reversedTerm], by decide⟩]⟩

theorem derivesProgram_reversed :
    DerivesProgram (lexemes reversedSource.toList) reversedDocument.sentences := by
  have words : lexemes reversedSource.toList =
      ["DEFINE", "v", "(", "TERM", "t", "TRIANGULAR", "(", "10", ",", "5", ",", "0", ")", ")"] ++
        [";"] := by
    rw [reversedSource]
    decide +kernel
  have ten : DerivesNumber (α := Float) "10" (Scalar.ofNumeral (.decimal false 10 0)) :=
    .mk (by decide +kernel) (by decide +kernel)
  have five : DerivesNumber (α := Float) "5" (Scalar.ofNumeral (.decimal false 5 0)) :=
    .mk (by decide +kernel) (by decide +kernel)
  have zero : DerivesNumber (α := Float) "0" (Scalar.ofNumeral (.decimal false 0 0)) :=
    .mk (by decide +kernel) (by decide +kernel)
  have numbers := ((DerivesNumbers.first ten).comma (by simp) five).comma (by simp) zero
  have triangle : DerivesFuzzySet ["TRIANGULAR", "(", "10", ",", "5", ",", "0", ")"]
      reversedTerm.fuzzySet := .call (by decide +kernel) (.parens numbers) (.triangular _ _ _)
  have term : DerivesTerm ["TERM", "t", "TRIANGULAR", "(", "10", ",", "5", ",", "0", ")"]
      reversedTerm := .termWord (by decide +kernel) triangle
  rw [words]
  exact .semicolon (.define (by decide +kernel) (.last term)) .nil

end Reversed

theorem not_covers_reversed_triangle :
    ∃ v ∈ (parse .standard reversedSource : Parsing Float).document.definitions,
      (parse .standard reversedSource : Parsing Float).errors = [] ∧ v.terms ≠ [] ∧
      (∀ t ∈ v.terms, ∀ x ∈ t.fuzzySet.numbers, Scalar.isFinite x = true) ∧
      ¬ v.Covers := by
  obtain ⟨noError, document⟩ :=
    Parsing.toExcept_eq_ok_iff.1 (toExcept_parse_of_derives derivesProgram_reversed)
  refine ⟨_, by rw [document]; exact List.mem_singleton.2 rfl, noError, by simp, ?_, ?_⟩
  · rw [List.forall_mem_singleton]
    decide +kernel
  · intro covers
    exact absurd covers.ordered (by decide +kernel)

end FuzzyInference
