import FuzzyInference.FuzzySet.Basic
import FuzzyInference.Proofs.ExactOrder
import Mathlib.Order.Bounds.Basic

/-!
# Comparing scalars

What the least and the greatest of several scalars are depends on how scalars compare, and on no
arithmetic.

* `Scalar.Ordered`: scalars that compare as binary64 numbers do, and `Scalar.Comparable`: those
  whose three comparisons agree with each other. Exact ones are an instance;
* `isGreatest_greatest`: a maximum that takes in one more scalar;
* `FuzzySet.degree_clip_of_defined`, `FuzzySet.degree_max_pair`: a fuzzy set that is capped, and the
  maximum of two.
-/

namespace FuzzyInference

open Scalar (least greatest posInf negInf)

/-- The scalar is no undefined result. -/
def Scalar.Defined {α : Type} [Scalar α] (a : α) : Prop := (a == a) = true

instance {α : Type} [Scalar α] (a : α) : Decidable (Scalar.Defined a) :=
  inferInstanceAs (Decidable (_ = true))

/-- Comparison as IEEE 754 has it. The defined scalars are totally ordered between the two
infinities, and an undefined one compares to nothing. Two scalars can be at most each other and yet
differ, as the two zeros of a number format do. -/
class Scalar.Ordered (α : Type) [Scalar α] : Prop where
  defined_of_le : ∀ {a b : α}, a ≤ b → Defined a ∧ Defined b
  le_trans : ∀ {a b c : α}, a ≤ b → b ≤ c → a ≤ c
  le_total : ∀ {a b : α}, Defined a → Defined b → a ≤ b ∨ b ≤ a
  eq_posInf : ∀ {a : α}, posInf ≤ a → posInf = a
  eq_negInf : ∀ {a : α}, a ≤ negInf → negInf = a

instance : Scalar.Ordered Exact where
  defined_of_le h := by
    obtain ⟨ha, hb⟩ := Exact.defined_of_le h
    exact ⟨Exact.beq_iff.2 ⟨ha, rfl⟩, Exact.beq_iff.2 ⟨hb, rfl⟩⟩
  le_trans := Exact.le_trans
  le_total ha hb := Exact.le_total (Exact.beq_iff.1 ha).1 (Exact.beq_iff.1 hb).1
  eq_posInf h := Exact.le_antisymm h (Exact.le_posInf (Exact.defined_of_le h).2)
  eq_negInf h := Exact.le_antisymm (Exact.negInf_le (Exact.defined_of_le h).1) h

/-- Two scalars are equal if each is at most the other, and the one is less than the other if that
is not the case the other way round. -/
class Scalar.Comparable (α : Type) [Scalar α] : Prop extends Scalar.Ordered α where
  beq_iff : ∀ {a b : α}, (a == b) = true ↔ a ≤ b ∧ b ≤ a
  lt_iff : ∀ {a b : α}, a < b ↔ a ≤ b ∧ ¬ b ≤ a

instance : Scalar.Comparable Exact where
  beq_iff := by
    intro a b
    rw [Exact.beq_iff]
    constructor
    · rintro ⟨defined, rfl⟩
      exact ⟨Exact.le_refl defined, Exact.le_refl defined⟩
    · rintro ⟨forth, back⟩
      exact ⟨(Exact.defined_of_le forth).1, Exact.le_antisymm forth back⟩
  lt_iff := by
    intro a b
    have less : a < b ↔ Exact.lt a b = true := Iff.rfl
    rw [less]
    cases a <;> cases b <;> simp [Exact.le_iff, Exact.le, Exact.lt]
    exact Rat.le_of_lt

namespace Scalar

variable {α : Type} [Scalar α] [Comparable α] {a b c : α}

protected theorem le_of_lt (h : a < b) : a ≤ b := (Comparable.lt_iff.1 h).1

protected theorem not_le_of_lt (h : a < b) : ¬ b ≤ a := (Comparable.lt_iff.1 h).2

protected theorem not_lt_of_le (h : a ≤ b) : ¬ b < a := fun less => Scalar.not_le_of_lt less h

protected theorem ne_of_lt (h : a < b) : a ≠ b := by
  rintro rfl
  exact Scalar.not_le_of_lt h (Scalar.le_of_lt h)

protected theorem lt_of_lt_of_le (hab : a < b) (hbc : b ≤ c) : a < c := by
  refine Comparable.lt_iff.2 ⟨Ordered.le_trans (Scalar.le_of_lt hab) hbc, ?_⟩
  intro back
  exact Scalar.not_le_of_lt hab (Ordered.le_trans hbc back)

protected theorem lt_of_le_of_lt (hab : a ≤ b) (hbc : b < c) : a < c := by
  refine Comparable.lt_iff.2 ⟨Ordered.le_trans hab (Scalar.le_of_lt hbc), ?_⟩
  intro back
  exact Scalar.not_le_of_lt hbc (Ordered.le_trans back hab)

/-- Where one is less than the other, they differ. -/
protected theorem not_beq_of_lt (h : a < b ∨ b < a) : ¬ (a == b) = true := by
  rw [Comparable.beq_iff]
  rintro ⟨forth, back⟩
  rcases h with less | less
  · exact Scalar.not_le_of_lt less back
  · exact Scalar.not_le_of_lt less forth

end Scalar

variable {α : Type} [Scalar α] {a b : α}

/-- Of two scalars an undefined one gives way. -/
theorem defined_least (h : Scalar.Defined a) (b : α) : Scalar.Defined (least a b) := by
  unfold least
  split
  · exact h
  · next other =>
    rw [Bool.or_eq_true, not_or, bne, Bool.not_eq_true', Bool.not_eq_false] at other
    exact other.2

variable [Scalar.Ordered α]

theorem Scalar.Defined.le_refl (h : Scalar.Defined a) : a ≤ a := by
  rcases Scalar.Ordered.le_total h h with h | h
  · exact h
  · exact h

theorem least_posInf (h : Scalar.Defined b) : least posInf b = b := by
  unfold least
  split
  · next first =>
    rw [Bool.or_eq_true, decide_eq_true_eq, bne, h, Bool.not_true] at first
    exact Scalar.Ordered.eq_posInf (first.resolve_right nofun)
  · rfl

theorem greatest_negInf (h : Scalar.Defined b) : greatest negInf b = b := by
  unfold greatest
  split
  · next first =>
    rw [Bool.or_eq_true, decide_eq_true_eq, bne, h, Bool.not_true] at first
    exact Scalar.Ordered.eq_negInf (first.resolve_right nofun)
  · rfl

/-- The greater of two is one of them, and both are at most it. -/
theorem greatest_cases (ha : Scalar.Defined a) (hb : Scalar.Defined b) :
    (greatest a b = a ∨ greatest a b = b) ∧ a ≤ greatest a b ∧ b ≤ greatest a b := by
  unfold greatest
  split
  · next h =>
    rw [Bool.or_eq_true, decide_eq_true_eq, bne, hb, Bool.not_true] at h
    exact ⟨.inl rfl, ha.le_refl, h.resolve_right nofun⟩
  · next h =>
    rw [Bool.or_eq_true, decide_eq_true_eq, not_or] at h
    exact ⟨.inr rfl, (Scalar.Ordered.le_total ha hb).resolve_right h.1, hb.le_refl⟩

/-- The lesser of two is one of them, and at most both. -/
theorem least_cases (ha : Scalar.Defined a) (hb : Scalar.Defined b) :
    (least a b = a ∨ least a b = b) ∧ least a b ≤ a ∧ least a b ≤ b := by
  unfold least
  split
  · next h =>
    rw [Bool.or_eq_true, decide_eq_true_eq, bne, hb, Bool.not_true] at h
    exact ⟨.inl rfl, ha.le_refl, h.resolve_right nofun⟩
  · next h =>
    rw [Bool.or_eq_true, decide_eq_true_eq, not_or] at h
    exact ⟨.inr rfl, (Scalar.Ordered.le_total ha hb).resolve_left h.1, hb.le_refl⟩

/-- The greatest of a set and of one more scalar is the greater of the two. -/
theorem isGreatest_greatest {s : Set α} (ha : IsGreatest s a) (hb : Scalar.Defined b) :
    IsGreatest (insert b s) (greatest a b) := by
  have defined := (Scalar.Ordered.defined_of_le (ha.2 ha.1)).1
  obtain ⟨one, first, second⟩ := greatest_cases defined hb
  constructor
  · rcases one with h | h
    · rw [h]
      exact .inr ha.1
    · rw [h]
      exact .inl rfl
  · rintro c (rfl | hc)
    · exact second
    · exact Scalar.Ordered.le_trans (ha.2 hc) first

theorem isGreatest_single (h : Scalar.Defined a) : IsGreatest {a} a := by
  constructor
  · rfl
  · rintro b rfl
    exact h.le_refl

/-! ## Fuzzy sets -/

namespace FuzzySet

theorem degree_clip_of_defined (m : FuzzySet α) {y : α} (h : Scalar.Defined y) (x : α) :
    (m.clip y).degree x = least y (m.degree x) := by
  have folded : (m.clip y).degree x = least (least posInf y) (m.degree x) := by
    rw [clip, degree]
    rfl
  rw [folded, least_posInf h]

theorem degree_max_pair {m : FuzzySet α} {x : α} (h : Scalar.Defined (m.degree x))
    (n : FuzzySet α) : (FuzzySet.max [m, n]).degree x = greatest (m.degree x) (n.degree x) := by
  have folded : (FuzzySet.max [m, n]).degree x =
      greatest (greatest negInf (m.degree x)) (n.degree x) := by
    rw [degree]
    rfl
  rw [folded, greatest_negInf h]

end FuzzySet

end FuzzyInference
