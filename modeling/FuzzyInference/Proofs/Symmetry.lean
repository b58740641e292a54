import FuzzyInference.Proofs.CrispValues
import FuzzyInference.Proofs.SampleGrid
import FuzzyInference.Proofs.Slopes
import Mathlib.Algebra.BigOperators.Ring.List

/-!
# Symmetric fuzzy sets

Where a fuzzy set looks the same from both ends of a range, its crisp value is in the middle.

* `FuzzySet.Mirrored`: such a set. `mirrored_triangular`, `mirrored_trapezoid`, `Mirrored.inverted`
  and so on: what sets are;
* `Paired`: numbers that come in pairs of one sum. `Paired.sum_mul`: their sum, weighted alike in
  each pair;
* `Samples.exists_paired`: the samples of a range are such numbers, if no step is cut off;
* `centroid_of_mirrored`, `meanOfMaximum_of_mirrored`: each of the methods;
* `crisp_value_of_mirrored`: both.
-/

namespace FuzzyInference

open Exact (finite finite_le_finite)

/-! ## Mirrored sets -/

/-- The degrees in equal distances from the two numbers, between them, are the same. -/
def FuzzySet.Mirrored (m : FuzzySet Exact) (p r : Rat) : Prop :=
  ∀ t, 0 ≤ t → t ≤ r - p → m.degree (finite (p + t)) = m.degree (finite (r - t))

namespace FuzzySet

variable {p r : Rat} {m : FuzzySet Exact} {ms : List (FuzzySet Exact)}

theorem Mirrored.degree_eq (h : m.Mirrored p r) {x : Rat} (low : p ≤ x) (high : x ≤ r) :
    m.degree (finite (p + r - x)) = m.degree (finite x) := by
  have mirror := h (x - p) (sub_nonneg.2 low) (sub_le_sub_right high p)
  rw [add_sub_cancel, sub_sub_eq_add_sub, add_comm r p] at mirror
  exact mirror.symm

theorem mirrored_constant (y : Exact) : (FuzzySet.constant y).Mirrored p r := by
  intro t _ _
  rw [degree, degree]

theorem Mirrored.inverted (h : m.Mirrored p r) : (FuzzySet.inverted m).Mirrored p r := by
  intro t low high
  rw [degree, degree, h t low high]

theorem degrees_of_mirrored (h : ∀ m ∈ ms, m.Mirrored p r) {t : Rat} (low : 0 ≤ t)
    (high : t ≤ r - p) : degrees ms (finite (p + t)) = degrees ms (finite (r - t)) := by
  rw [degrees_eq_map, degrees_eq_map]
  exact List.map_congr_left fun m hm => h m hm t low high

theorem mirrored_min (h : ∀ m ∈ ms, m.Mirrored p r) : (FuzzySet.min ms).Mirrored p r := by
  intro t low high
  rw [degree, degree, degrees_of_mirrored h low high]

theorem mirrored_max (h : ∀ m ∈ ms, m.Mirrored p r) : (FuzzySet.max ms).Mirrored p r := by
  intro t low high
  rw [degree, degree, degrees_of_mirrored h low high]

theorem Mirrored.clip (h : m.Mirrored p r) (y : Exact) : (m.clip y).Mirrored p r := by
  apply mirrored_min
  simpa using ⟨mirrored_constant y, h⟩

end FuzzySet

section

variable {a b c d : Rat} {f : Exact → Exact}

/-- Where the way up is as long as the way down, what is left of its top is on the one as it is on
the other. -/
theorem Ascent.reflect (up : Ascent a b f) (down : Descent c d f) (even : a + d = b + c)
    {q : Rat} (left : q ≤ b) : f (finite (b + c - q)) = f (finite q) := by
  rcases left.eq_or_lt with rfl | left
  · rw [add_sub_cancel_left, up.top, down.top]
  have right : c < b + c - q := by linarith
  by_cases below : q ≤ a
  · have above : finite d ≤ finite (b + c - q) := finite_le_finite.2 (by linarith)
    rw [up.below _ (finite_le_finite.2 below) fun same => left.ne (Exact.finite.inj same),
      down.above _ above fun same => right.ne' (Exact.finite.inj same)]
  · rw [not_le] at below
    have height : d - (b + c - q) = q - a := by linarith
    have width : d - c = b - a := by linarith
    rw [up.between q below left, down.between _ right (by linarith), height, width]

/-- A hill with slopes of the same length looks the same from both sides. -/
theorem reflect_of_ascent_of_descent (up : Ascent a b f) (down : Descent c d f)
    (top : ∀ x, finite b ≤ x → x ≤ finite c → f x = 1) (even : a + d = b + c) (q : Rat) :
    f (finite (b + c - q)) = f (finite q) := by
  rcases le_or_gt q b with left | middle
  · exact up.reflect down even left
  rcases le_or_gt q c with within | right
  · rw [top _ (finite_le_finite.2 middle.le) (finite_le_finite.2 within),
      top _ (finite_le_finite.2 (by linarith)) (finite_le_finite.2 (by linarith))]
  · have mirror := up.reflect down even (q := b + c - q) (by linarith)
    rw [sub_sub_cancel] at mirror
    exact mirror.symm

variable {p r : Rat}

theorem mirrored_of_reflect {m : FuzzySet Exact} (h : ∀ q, m.degree (finite (p + r - q)) =
    m.degree (finite q)) : m.Mirrored p r := by
  intro t _ _
  rw [← h (p + t), add_sub_add_left_eq_sub]

theorem mirrored_triangular (hab : a ≤ b) (hbc : b ≤ c) (even : a + c = b + b)
    (middle : p + r = b + b) :
    (FuzzySet.triangular (finite a) (finite b) (finite c)).Mirrored p r := by
  apply mirrored_of_reflect
  rw [middle]
  apply reflect_of_ascent_of_descent (ascent_triangle hbc) (descent_triangle hab) _ even
  intro x low high
  rw [Exact.le_antisymm high low]
  exact triangle_peak

theorem mirrored_trapezoid (hab : a ≤ b) (hbc : b ≤ c) (hcd : c ≤ d) (even : a + d = b + c)
    (middle : p + r = b + c) :
    (FuzzySet.trapezoid (finite a) (finite b) (finite c) (finite d)).Mirrored p r := by
  apply mirrored_of_reflect
  rw [middle]
  exact reflect_of_ascent_of_descent (ascent_trapezoid hab hbc hcd) (descent_trapezoid hab hbc hcd)
    (fun _ => trapezoid_top) even

end

/-! ## Pairs of one sum -/

/-- The first and the last number add up to `s`, the second and the last but one do, and so on. -/
def Paired (s : Rat) (xs : List Rat) : Prop := xs.reverse = xs.map (s - ·)

namespace Paired

variable {s : Rat} {xs : List Rat} (h : Paired s xs)

include h

/-- Each number stands for half the sum of its pair. -/
theorem sum_mul {y : Rat → Rat} (same : ∀ x ∈ xs, y (s - x) = y x) :
    2 * (xs.map fun x => y x * x).sum = s * (xs.map y).sum := by
  have turned : (xs.map fun x => y x * x).sum = (xs.map fun x => y x * (s - x)).sum := by
    rw [← List.sum_reverse, ← List.map_reverse, h, List.map_map]
    refine congrArg List.sum (List.map_congr_left fun x hx => ?_)
    rw [Function.comp_apply, same x hx]
  calc
    _ = (xs.map fun x => y x * x).sum + (xs.map fun x => y x * (s - x)).sum := by
      rw [two_mul, ← turned]
    _ = (xs.map fun x => s * y x).sum := by
      rw [← List.sum_map_add]
      exact congrArg List.sum (List.map_congr_left fun x _ => by ring)
    _ = s * (xs.map y).sum := List.sum_map_mul_left ..

theorem sum : 2 * xs.sum = s * xs.length := by
  have weightless := h.sum_mul (y := fun _ => 1) fun _ _ => rfl
  simpa using weightless

theorem filter {keep : Rat → Bool} (same : ∀ x ∈ xs, keep (s - x) = keep x) :
    Paired s (xs.filter keep) := by
  unfold Paired
  rw [← List.filter_reverse, h, List.filter_map]
  exact congrArg _ (List.filter_congr same)

end Paired

namespace Samples

variable {p r : Rat} {n : Nat}

theorem paired_grid (wide : p ≤ r) (positive : 0 < n) :
    Paired (p + r) ((List.range (n + 1)).map (gridPoint p r ((r - p) / n))) := by
  have forward : 0 ≤ (r - p) / n := div_nonneg (sub_nonneg.2 wide) (Nat.cast_nonneg n)
  have counts : (n : Rat) ≠ 0 := Nat.cast_ne_zero.2 positive.ne'
  have reaches : p + (r - p) / n * n = r := by rw [div_mul_cancel₀ _ counts, add_sub_cancel]
  unfold Paired
  rw [← List.map_reverse, List.range_eq_range', List.reverse_range', ← List.range_eq_range',
    List.map_map, List.map_map]
  refine List.map_congr_left fun k hk => ?_
  have le : k ≤ n := Nat.lt_succ_iff.1 (List.mem_range.1 hk)
  simp only [Function.comp_apply, Nat.zero_add, Nat.add_sub_cancel]
  rw [StepsFit.gridPoint_eq_of_le reaches.le forward (Nat.sub_le n k),
    StepsFit.gridPoint_eq_of_le reaches.le forward le, Nat.cast_sub le]
  linarith

/-- In more steps than can be counted there are no samples. -/
theorem toList_ofSteps_of_many (wide : 1 ≤ r - p) (many : UInt64.size ≤ max n 1) :
    (ofSteps ⟨finite p, finite r⟩ n).toList = [] := by
  have ordered : p ≤ r := by linarith
  have counts : (0 : Rat) < (max n 1 : Nat) := Nat.cast_pos.2 (Nat.le_max_right n 1)
  have width : r - p ≠ 0 := by linarith
  have uncounted : Exact.floor? (finite (((max n 1 : Nat) : Rat) + 1 / 1000000000)) = none := by
    apply if_neg
    rintro ⟨-, few⟩
    have many : (UInt64.size : Rat) ≤ (max n 1 : Nat) := by exact_mod_cast many
    exact few.not_ge (le_add_of_le_of_nonneg many (by norm_num))
  rw [toList_ofSteps, max_eq_right wide, countOf_finite ordered (div_pos (by linarith) counts),
    div_div_cancel₀ width, uncounted]
  rfl

/-- The samples of a range in which no step is cut off lie as they do seen from its high end. -/
theorem exists_paired (wide : 1 ≤ r - p) (n : Nat) :
    ∃ xs : List Rat, (ofSteps ⟨finite p, finite r⟩ n).toList = xs.map finite ∧
      Paired (p + r) xs ∧ ∀ x ∈ xs, p ≤ x ∧ x ≤ r := by
  have ordered : p ≤ r := by linarith
  rcases lt_or_ge (max n 1) UInt64.size with few | many
  · obtain ⟨steps, fits, samples⟩ := exists_grid ordered few
    rw [max_eq_right wide] at fits samples
    have counts : ((max n 1 : Nat) : Rat) ≠ 0 :=
      Nat.cast_ne_zero.2 (Nat.lt_of_lt_of_le one_pos (Nat.le_max_right n 1)).ne'
    have shared : (r - p) / (max n 1 : Nat) * (max n 1 : Nat) = r - p := div_mul_cancel₀ _ counts
    obtain rfl : steps = max n 1 :=
      le_antisymm (fits.steps_le shared.ge) (fits.le_steps shared.le)
    refine ⟨_, samples, paired_grid ordered (Nat.le_max_right n 1), ?_⟩
    simp only [List.forall_mem_map]
    exact fun k _ => fits.gridPoint_mem ordered
  · exact ⟨[], toList_ofSteps_of_many wide many, rfl, List.forall_mem_nil _⟩

end Samples

/-! ## Crisp values -/

/-- Over samples with finite degrees the moments are sums. -/
theorem moments_finite {m : FuzzySet Exact} {y : Rat → Rat} {xs : List Rat}
    (degrees : ∀ x ∈ xs, m.degree (finite x) = finite (y x)) :
    moments m (xs.map finite) =
      (finite (xs.map fun x => y x * x).sum, finite (xs.map y).sum) := by
  induction xs using List.reverseRecOn with
  | nil => rfl
  | append_singleton xs x ih =>
    rw [List.forall_mem_append, List.forall_mem_singleton] at degrees
    have before := ih degrees.1
    unfold moments at before ⊢
    rw [List.map_append, List.foldl_append, before]
    simp only [List.map_cons, List.map_nil, List.foldl_cons, List.foldl_nil, degrees.2,
      List.map_append, List.sum_append, List.sum_singleton]
    rfl

section

variable {m : FuzzySet Exact} {p r : Rat} (mirrored : m.Mirrored p r) (wide : 1 ≤ r - p)

include mirrored wide

/-- The centroid of a mirrored set is the middle of the range, be its degrees positive or not. -/
theorem centroid_of_mirrored
    (degrees : ∀ x, p ≤ x → x ≤ r → Scalar.isFinite (m.degree (finite x)) = true) (steps : Nat) :
    centroid steps m ⟨finite p, finite r⟩ = finite ((p + r) / 2) := by
  rcases centroid_cases steps m ⟨finite p, finite r⟩ with middle | ⟨weighty, quotient⟩
  · rw [middle, Range.midpoint_finite]
  · obtain ⟨xs, samples, paired, inside⟩ := Samples.exists_paired wide steps
    have value (x : Rat) (low : p ≤ x) (high : x ≤ r) : ∃ y, m.degree (finite x) = finite y :=
      Exact.isFinite_iff.1 (degrees x low high)
    choose! y hy using value
    have same (x : Rat) (hx : x ∈ xs) : y (p + r - x) = y x := by
      obtain ⟨low, high⟩ := inside x hx
      have mirror := mirrored.degree_eq low high
      rw [hy x low high, hy _ (by linarith) (by linarith)] at mirror
      exact Exact.finite.inj mirror
    have balance := paired.sum_mul same
    rw [samples,
      moments_finite fun x hx => hy x (inside x hx).1 (inside x hx).2] at weighty quotient
    have weighs : (xs.map y).sum ≠ 0 := by
      intro zero
      rw [zero] at weighty
      exact weighty rfl
    rw [quotient, Exact.finite_div_finite _ weighs]
    apply congrArg finite
    rw [div_eq_div_iff weighs two_ne_zero, mul_comm, balance]

omit wide in
/-- With a sample, the one in its place seen from the high end is maximal too. -/
theorem exists_paired_samplesAt {xs : List Rat} (paired : Paired (p + r) xs)
    (inside : ∀ x ∈ xs, p ≤ x ∧ x ≤ r) (height : Exact) :
    ∃ ys : List Rat, samplesAt m height (xs.map finite) = ys.map finite ∧ Paired (p + r) ys := by
  refine ⟨xs.filter fun x => Scalar.distance (m.degree (finite x)) height < Scalar.tolerance,
    ?_, ?_⟩
  · rw [samplesAt, List.filter_map]
    rfl
  · apply paired.filter
    intro x hx
    rw [mirrored.degree_eq (inside x hx).1 (inside x hx).2]

/-- The mean of maximum of a mirrored set is the middle of the range. -/
theorem meanOfMaximum_of_mirrored (steps : Nat) :
    meanOfMaximum steps m ⟨finite p, finite r⟩ = finite ((p + r) / 2) := by
  rcases meanOfMaximum_cases steps m ⟨finite p, finite r⟩ with middle | ⟨height, nonempty, mean⟩
  · rw [middle, Range.midpoint_finite]
  · obtain ⟨xs, samples, paired, inside⟩ := Samples.exists_paired wide steps
    obtain ⟨ys, maximal, paired⟩ := exists_paired_samplesAt mirrored paired inside height
    rw [samples, maximal] at nonempty mean
    rw [ne_eq, List.map_eq_nil_iff] at nonempty
    have count : (ys.length : Rat) ≠ 0 :=
      Nat.cast_ne_zero.2 (List.length_eq_zero_iff.not.2 nonempty)
    rw [mean, meanOf_finite nonempty]
    apply congrArg finite
    rw [div_eq_div_iff count two_ne_zero, mul_comm, paired.sum]

end

/-- Of a fuzzy set that looks the same from both ends of the range, both methods give the middle of
the range, in whatever number of steps. The range is at least one wide, so that its steps reach the
high end. -/
theorem crisp_value_of_mirrored {m : FuzzySet Exact} (populated : m.Populated)
    (numbers : ∀ x ∈ m.numbers, Scalar.isFinite x = true) {p r : Rat} (wide : 1 ≤ r - p)
    (mirrored : m.Mirrored p r) (steps : Nat) :
    centroid steps m ⟨finite p, finite r⟩ = finite ((p + r) / 2) ∧
      meanOfMaximum steps m ⟨finite p, finite r⟩ = finite ((p + r) / 2) := by
  constructor
  · apply centroid_of_mirrored mirrored wide
    intro x _ _
    exact populated.isFinite_degree numbers rfl
  · exact meanOfMaximum_of_mirrored mirrored wide steps

/-- In a narrower range the last sample may come before the high end, and nothing stands against the
low one. -/
example : centroid 2 (.constant (finite 1)) ⟨finite 0, finite (3 / 4)⟩ = finite (1 / 4) := by
  decide +kernel

/-- A clipped trapezoid over an inverted triangle. -/
def plateau : FuzzySet Exact :=
  .max [
    (FuzzySet.trapezoid (finite 1) (finite 2) (finite 3) (finite 4)).clip (finite (3 / 4)),
    .inverted (.triangular (finite 0) (finite (5 / 2)) (finite 5))]

theorem populated_plateau : plateau.Populated := by
  apply FuzzySet.Populated.max (List.cons_ne_nil _ _)
  simp only [List.forall_mem_cons]
  refine ⟨.min (List.cons_ne_nil _ _) ?_, .inverted (.triangular _ _ _), List.forall_mem_nil _⟩
  simpa using ⟨.constant _, .trapezoid _ _ _ _⟩

theorem mirrored_plateau : plateau.Mirrored 0 5 := by
  apply FuzzySet.mirrored_max
  simp only [List.forall_mem_cons]
  refine ⟨?_, ?_, List.forall_mem_nil _⟩
  · apply FuzzySet.Mirrored.clip
    apply mirrored_trapezoid <;> norm_num
  · apply FuzzySet.Mirrored.inverted
    apply mirrored_triangular <;> norm_num

theorem crisp_value_of_mirrored_plateau :
    plateau.Populated ∧ (∀ x ∈ plateau.numbers, Scalar.isFinite x = true) ∧ (1 : Rat) ≤ 5 - 0 ∧
      plateau.Mirrored 0 5 ∧
      centroid 3 plateau ⟨finite 0, finite 5⟩ = finite ((0 + 5) / 2) ∧
      meanOfMaximum 3 plateau ⟨finite 0, finite 5⟩ = finite ((0 + 5) / 2) := by
  have numbers : ∀ x ∈ plateau.numbers, Scalar.isFinite x = true := by decide +kernel
  have wide : (1 : Rat) ≤ 5 - 0 := by norm_num
  exact ⟨populated_plateau, numbers, wide, mirrored_plateau,
    crisp_value_of_mirrored populated_plateau numbers wide mirrored_plateau 3⟩

end FuzzyInference
