import FuzzyInference.Defuzzification.Basic
import FuzzyInference.Proofs.ExactOrder
import Mathlib.Algebra.Order.Field.Basic
import Mathlib.Algebra.Order.Field.Rat
import Mathlib.Tactic.Linarith
import Mathlib.Tactic.NormNum
import Mathlib.Tactic.Positivity

/-!
# Samples of a range

* `Range.Proper`: a range between two finite numbers, and `Range.Contains`: the numbers in it;
* `Samples.ofSteps_finite`: the width of the steps, and `Samples.sample_finite`: where they end;
* `Samples.contains_of_mem`: all samples lie in the range. The last step may reach past its end, and
  is cut off there;
* `foldl_add_finite`, `meanOf_finite`: the sum of finite samples, and their mean.
-/

namespace FuzzyInference

open Exact (finite)

def Range.Contains (range : Range Exact) (y : Exact) : Prop := range.low ≤ y ∧ y ≤ range.high

/-- Both ends are finite, and they are the right way round. -/
structure Range.Proper (range : Range Exact) : Prop where
  low : Scalar.isFinite range.low = true
  high : Scalar.isFinite range.high = true
  ordered : range.low ≤ range.high

namespace Range

variable {range : Range Exact} {p r : Rat}

theorem contains_finite_iff {q : Rat} :
    (Range.mk (finite p) (finite r)).Contains (finite q) ↔ p ≤ q ∧ q ≤ r :=
  and_congr Exact.finite_le_finite Exact.finite_le_finite

theorem midpoint_finite (p r : Rat) :
    (Range.mk (finite p) (finite r)).midpoint = finite ((p + r) / 2) := by
  rw [← one_add_one_eq_two]
  exact Exact.finite_div_finite (p + r) (by norm_num)

theorem Contains.exists_finite {y : Exact} (h : (Range.mk (finite p) (finite r)).Contains y) :
    ∃ q, y = finite q ∧ p ≤ q ∧ q ≤ r :=
  Exact.exists_finite_of_le h.1 h.2

theorem Proper.exists_finite (h : range.Proper) :
    ∃ p r : Rat, range = ⟨finite p, finite r⟩ ∧ p ≤ r := by
  obtain ⟨p, hp⟩ := Exact.isFinite_iff.1 h.low
  obtain ⟨r, hr⟩ := Exact.isFinite_iff.1 h.high
  have ordered := h.ordered
  rw [hp, hr, Exact.finite_le_finite] at ordered
  refine ⟨p, r, ?_, ordered⟩
  rw [← hp, ← hr]

theorem Proper.isFinite_of_contains (h : range.Proper) {x : Exact} (inside : range.Contains x) :
    Scalar.isFinite x = true := by
  obtain ⟨p, r, rfl, -⟩ := h.exists_finite
  obtain ⟨q, rfl, -⟩ := inside.exists_finite
  rfl

theorem Proper.contains_midpoint (h : range.Proper) : range.Contains range.midpoint := by
  obtain ⟨p, r, rfl, ordered⟩ := h.exists_finite
  rw [midpoint_finite, contains_finite_iff]
  constructor <;> linarith

end Range

namespace Samples

/-- Each step has its share of the width of the range, or of one if the range is narrower. -/
theorem ofSteps_finite (p r : Rat) (n : Nat) :
    ofSteps ⟨finite p, finite r⟩ n =
      ofStep ⟨finite p, finite r⟩ (finite (max 1 (r - p) / (max n 1 : Nat))) := by
  have positive : (0 : Rat) < (max n 1 : Nat) := Nat.cast_pos.2 (Nat.le_max_right n 1)
  have count : (Scalar.ofNat (max n 1) : Exact) = finite (max n 1 : Nat) := rfl
  have one : (1 : Exact) / finite (max n 1 : Nat) = finite (1 / (max n 1 : Nat)) :=
    Exact.finite_div_finite 1 positive.ne'
  unfold ofSteps
  simp only
  rw [count, one, Exact.finite_sub_finite, Exact.finite_div_finite _ positive.ne',
    Exact.greatest_finite, max_div_div_right positive.le]

/-- A sample lies as many steps from the low end as its index says, but no further than the high
one. -/
theorem sample_finite (p r width : Rat) (index count k : Nat) :
    sample ⟨finite p, finite r, finite width, index, count⟩ k = finite (min (p + width * k) r) :=
  Exact.least_finite _ _

/-- All samples lie in the range. -/
theorem contains_of_mem {range : Range Exact} (h : range.Proper) {steps : Nat} {x : Exact}
    (hx : x ∈ (ofSteps range steps).toList) : range.Contains x := by
  obtain ⟨p, r, rfl, ordered⟩ := h.exists_finite
  rw [ofSteps_finite, toList, List.mem_map] at hx
  obtain ⟨k, -, rfl⟩ := hx
  have forward : 0 ≤ max 1 (r - p) / (max steps 1 : Nat) * k := by positivity
  rw [ofStep, sample_finite, Range.contains_finite_iff]
  refine ⟨le_min ?_ ordered, min_le_right _ _⟩
  linarith

end Samples

/-! ## Sums -/

theorem foldl_add_finite (xs : List Rat) :
    (xs.map finite).foldl (· + ·) 0 = finite xs.sum := by
  rw [List.foldl_map, List.sum_eq_foldl]
  exact List.foldl_hom finite fun _ _ => rfl

/-- The sum of some samples, from the first one on, divided by their number. -/
def meanOf (samples : List Exact) : Exact :=
  samples.foldl (· + ·) 0 / Scalar.ofNat samples.length

theorem meanOf_finite {xs : List Rat} (nonempty : xs ≠ []) :
    meanOf (xs.map finite) = finite (xs.sum / xs.length) := by
  have count : (xs.length : Rat) ≠ 0 := Nat.cast_ne_zero.2 (List.length_eq_zero_iff.not.2 nonempty)
  rw [meanOf, foldl_add_finite, List.length_map]
  exact Exact.finite_div_finite xs.sum count

end FuzzyInference
