import FuzzyInference.Number.Exact
import Mathlib.Algebra.Order.Ring.Rat

/-!
# The order of exact scalars

* `Exact.le_refl`, `Exact.le_trans`, `Exact.le_antisymm`, `Exact.le_total`: the order of the defined
  scalars;
* `Exact.finite_sub_finite`, `Exact.greatest_finite` and so on: the arithmetic of the finite ones;
* `Exact.Under`: the same order with the undefined result below all others;
* `Exact.foldl_greatest_under_iff`: the greatest of several scalars, by what it is under;
* `Exact.foldl_greatest_congr`: it does not depend on their order, nor on how often they come.
-/

namespace FuzzyInference

namespace Scalar

variable {α : Type} [Scalar α]

theorem least_eq_or (a b : α) : least a b = a ∨ least a b = b := by
  unfold least
  split
  · exact .inl rfl
  · exact .inr rfl

theorem greatest_eq_or (a b : α) : greatest a b = a ∨ greatest a b = b := by
  unfold greatest
  split
  · exact .inl rfl
  · exact .inr rfl

end Scalar

namespace Exact

variable {a b c : Exact}

/-! ## Comparisons -/

theorem le_iff : a ≤ b ↔ Exact.le a b = true := Iff.rfl

theorem finite_le_finite {p q : Rat} : (finite p : Exact) ≤ finite q ↔ p ≤ q := by
  rw [le_iff, le, decide_eq_true_eq]

theorem finite_lt_finite {p q : Rat} : (finite p : Exact) < finite q ↔ p < q := decide_eq_true_iff

theorem defined_of_le (h : a ≤ b) : a ≠ undefined ∧ b ≠ undefined := by
  constructor
  · rintro rfl
    cases h
  · rintro rfl
    cases a <;> cases h

theorem beq_iff : (a == b) = true ↔ a ≠ undefined ∧ a = b := by
  have same : (a == b) = (!decide (a = undefined) && decide (a = b)) := rfl
  rw [same, Bool.and_eq_true, Bool.not_eq_true', decide_eq_false_iff_not, decide_eq_true_eq]

theorem finite_beq_finite {p q : Rat} : ((finite p : Exact) == finite q) = true ↔ p = q := by
  rw [beq_iff, and_iff_right nofun, finite.injEq]

/-- Only an undefined result differs from itself. -/
theorem bne_self_iff : (a != a) = true ↔ a = undefined := by
  rw [bne, Bool.not_eq_true', Bool.eq_false_iff, ne_eq, beq_iff, and_iff_left rfl, not_not]

theorem le_refl (h : a ≠ undefined) : a ≤ a := by
  cases a with
  | undefined => contradiction
  | negInf | posInf => rfl
  | finite q => exact finite_le_finite.2 (Rat.le_refl)

theorem le_trans (first : a ≤ b) (second : b ≤ c) : a ≤ c := by
  cases a <;> cases b <;> cases c <;> simp_all [le_iff, le]
  exact Rat.le_trans first second

theorem le_antisymm (first : a ≤ b) (second : b ≤ a) : a = b := by
  cases a <;> cases b <;> simp_all [le_iff, le]
  exact Rat.le_antisymm first second

theorem le_total (ha : a ≠ undefined) (hb : b ≠ undefined) : a ≤ b ∨ b ≤ a := by
  cases a <;> cases b <;> simp_all [le_iff, le]
  exact Rat.le_total

/-- A defined scalar is on one side of a finite one. -/
theorem le_finite_or_finite_le (h : a ≠ undefined) (q : Rat) : a ≤ finite q ∨ finite q ≤ a :=
  le_total h nofun

theorem le_posInf (h : a ≠ undefined) : a ≤ posInf := by
  cases a with
  | undefined => contradiction
  | _ => rfl

theorem negInf_le (h : a ≠ undefined) : negInf ≤ a := by
  cases a with
  | undefined => contradiction
  | _ => rfl

/-- Between two finite numbers all are finite. -/
theorem exists_finite_of_le {p r : Rat} (low : finite p ≤ a) (high : a ≤ finite r) :
    ∃ q, a = finite q ∧ p ≤ q ∧ q ≤ r := by
  cases a with
  | finite q => exact ⟨q, rfl, finite_le_finite.1 low, finite_le_finite.1 high⟩
  | undefined => exact absurd rfl (defined_of_le high).1
  | negInf => cases low
  | posInf => cases high

/-! ## Finite numbers -/

theorem finite_add_finite (p q : Rat) : (finite p + finite q : Exact) = finite (p + q) := rfl

theorem finite_sub_finite (p q : Rat) : (finite p - finite q : Exact) = finite (p - q) := by
  rw [sub_eq_add_neg]
  rfl

theorem finite_mul_finite (p q : Rat) : (finite p * finite q : Exact) = finite (p * q) := rfl

theorem finite_div_finite (p : Rat) {q : Rat} (h : q ≠ 0) :
    (finite p / finite q : Exact) = finite (p / q) := if_neg h

theorem isFinite_iff : Scalar.isFinite a = true ↔ ∃ q, a = finite q := by
  cases a with
  | finite q => exact ⟨fun _ => ⟨q, rfl⟩, fun _ => rfl⟩
  | undefined | negInf | posInf => exact ⟨nofun, nofun⟩

section

variable (ha : Scalar.isFinite a = true) (hb : Scalar.isFinite b = true)

include ha

theorem defined_of_isFinite : a ≠ undefined := by
  rintro rfl
  cases ha

include hb

theorem isFinite_add : Scalar.isFinite (a + b) = true := by
  obtain ⟨p, rfl⟩ := isFinite_iff.1 ha
  obtain ⟨q, rfl⟩ := isFinite_iff.1 hb
  rfl

theorem isFinite_sub : Scalar.isFinite (a - b) = true := by
  obtain ⟨p, rfl⟩ := isFinite_iff.1 ha
  obtain ⟨q, rfl⟩ := isFinite_iff.1 hb
  rfl

theorem isFinite_mul : Scalar.isFinite (a * b) = true := by
  obtain ⟨p, rfl⟩ := isFinite_iff.1 ha
  obtain ⟨q, rfl⟩ := isFinite_iff.1 hb
  rfl

theorem isFinite_div (h : b ≠ finite 0) : Scalar.isFinite (a / b) = true := by
  obtain ⟨p, rfl⟩ := isFinite_iff.1 ha
  obtain ⟨q, rfl⟩ := isFinite_iff.1 hb
  rw [finite_div_finite p fun zero => h (congrArg finite zero)]
  rfl

end

/-! ## The greatest and the least of several -/

/-- The order of scalars with the undefined result below all others. -/
def Under (a b : Exact) : Prop := a = undefined ∨ a ≤ b

theorem Under.refl (a : Exact) : Under a a := by
  by_cases h : a = undefined
  · exact .inl h
  · exact .inr (le_refl h)

theorem Under.trans (first : Under a b) (second : Under b c) : Under a c := by
  rcases first with h | first
  · exact .inl h
  · rcases second with h | second
    · exact absurd h (defined_of_le first).2
    · exact .inr (le_trans first second)

theorem Under.antisymm (first : Under a b) (second : Under b a) : a = b := by
  rcases first with rfl | first
  · rcases second with h | second
    · exact h.symm
    · exact absurd rfl (defined_of_le second).2
  · rcases second with rfl | second
    · exact absurd rfl (defined_of_le first).2
    · exact le_antisymm first second

open Scalar (greatest least least_eq_or greatest_eq_or)

/-- The greater one is one of the two, and both are under it. -/
theorem greatest_spec (a b : Exact) :
    (greatest a b = a ∨ greatest a b = b) ∧ Under a (greatest a b) ∧ Under b (greatest a b) := by
  unfold greatest
  split
  · next h =>
    rw [Bool.or_eq_true, decide_eq_true_eq, bne_self_iff] at h
    exact ⟨.inl rfl, .refl a, h.symm⟩
  · next h =>
    rw [Bool.or_eq_true, decide_eq_true_eq, bne_self_iff, not_or] at h
    obtain ⟨noLe, defined⟩ := h
    refine ⟨.inr rfl, ?_, .refl b⟩
    by_cases ha : a = undefined
    · exact .inl ha
    · exact .inr ((le_total ha defined).resolve_right noLe)

theorem greatest_defined (h : b ≠ undefined) : greatest a b ≠ undefined := by
  obtain ⟨-, -, second⟩ := greatest_spec a b
  exact (defined_of_le (second.resolve_left h)).2

theorem greatest_under_iff : Under (greatest a b) c ↔ Under a c ∧ Under b c := by
  obtain ⟨one, first, second⟩ := greatest_spec a b
  constructor
  · intro h
    exact ⟨first.trans h, second.trans h⟩
  · rintro ⟨ha, hb⟩
    rcases one with h | h
    · rwa [h]
    · rwa [h]

/-- The greatest of several scalars is the least that they are all under. -/
theorem foldl_greatest_under_iff {l : List Exact} :
    Under (l.foldl greatest a) c ↔ Under a c ∧ ∀ b ∈ l, Under b c := by
  induction l generalizing a with
  | nil => simp
  | cons b l ih => rw [List.foldl_cons, ih, greatest_under_iff, List.forall_mem_cons, and_assoc]

/-- Neither the order of the scalars counts nor how often they come. -/
theorem foldl_greatest_congr {l l' : List Exact} (same : ∀ b, b ∈ l ↔ b ∈ l') :
    l.foldl greatest a = l'.foldl greatest a := by
  have under (c : Exact) : Under (l.foldl greatest a) c ↔ Under (l'.foldl greatest a) c := by
    rw [foldl_greatest_under_iff, foldl_greatest_under_iff]
    exact and_congr_right fun _ => forall_congr' fun b => imp_congr_left (same b)
  exact ((under _).2 (.refl _)).antisymm ((under _).1 (.refl _))

/-- What is chosen among several is one of them. -/
theorem foldl_mem {choose : Exact → Exact → Exact} (one : ∀ a b, choose a b = a ∨ choose a b = b)
    (a : Exact) (l : List Exact) : l.foldl choose a ∈ a :: l := by
  induction l generalizing a with
  | nil => exact List.mem_singleton_self a
  | cons b l ih =>
    rw [List.foldl_cons]
    rcases one a b with same | same
    · rw [same]
      exact List.cons_subset_cons a (List.subset_cons_self b l) (ih a)
    · rw [same]
      exact List.mem_cons_of_mem a (ih b)

theorem greatest_undefined_left (b : Exact) : greatest undefined b = b := by
  apply Under.antisymm
  · exact greatest_under_iff.2 ⟨.inl rfl, .refl b⟩
  · exact (greatest_spec undefined b).2.2

/-- The seed of a maximum gives way to every defined scalar. -/
theorem greatest_negInf_left (h : b ≠ undefined) : greatest negInf b = b := by
  apply Under.antisymm
  · exact greatest_under_iff.2 ⟨.inr (negInf_le h), .refl b⟩
  · exact (greatest_spec negInf b).2.2

theorem least_defined (h : a ≠ undefined) (b : Exact) : least a b ≠ undefined := by
  by_cases hb : b = undefined
  · subst hb
    rwa [least, bne_self_iff.2 rfl, Bool.or_true, if_pos rfl]
  · rcases least_eq_or a b with same | same
    · rwa [same]
    · rwa [same]

/-- The seed of a minimum gives way to every defined scalar. -/
theorem least_posInf_left (h : b ≠ undefined) : least posInf b = b := by
  unfold least
  split
  · next first =>
    rw [Bool.or_eq_true, decide_eq_true_eq, bne_self_iff] at first
    exact le_antisymm (first.resolve_right h) (le_posInf h)
  · rfl

theorem foldl_greatest_mem {l : List Exact} (nonempty : l ≠ []) (defined : ∀ b ∈ l, b ≠ undefined) :
    l.foldl greatest negInf ∈ l := by
  obtain ⟨b, l, rfl⟩ := List.exists_cons_of_ne_nil nonempty
  rw [List.foldl_cons, greatest_negInf_left (defined b List.mem_cons_self)]
  exact foldl_mem greatest_eq_or b l

theorem foldl_least_mem {l : List Exact} (nonempty : l ≠ []) (defined : ∀ b ∈ l, b ≠ undefined) :
    l.foldl least posInf ∈ l := by
  obtain ⟨b, l, rfl⟩ := List.exists_cons_of_ne_nil nonempty
  rw [List.foldl_cons, least_posInf_left (defined b List.mem_cons_self)]
  exact foldl_mem least_eq_or b l

theorem bne_finite_self (q : Rat) : (finite q != finite q) = false := by
  rw [Bool.eq_false_iff, ne_eq, bne_self_iff]
  nofun

theorem greatest_finite (p q : Rat) : greatest (finite p) (finite q) = finite (max p q) := by
  unfold greatest
  simp only [bne_finite_self, Bool.or_false, decide_eq_true_eq, finite_le_finite]
  split
  · next above => rw [max_eq_left above]
  · next below => rw [max_eq_right (le_of_not_ge below)]

theorem least_finite (p q : Rat) : least (finite p) (finite q) = finite (min p q) := by
  unfold least
  simp only [bne_finite_self, Bool.or_false, decide_eq_true_eq, finite_le_finite]
  split
  · next below => rw [min_eq_left below]
  · next above => rw [min_eq_right (le_of_not_ge above)]

end Exact

end FuzzyInference
