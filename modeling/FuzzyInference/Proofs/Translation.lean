import FuzzyInference.Proofs.Comparison
import FuzzyInference.Proofs.SampleGrid

/-!
# Moving the origin

Where the origin of a scale is does not count. A fuzzy set and a range that have both moved along
the scale give a crisp value that has moved with them.

* `FuzzySet.translate`: a fuzzy set that has moved. The degrees that it is given have not;
* `FuzzySet.degree_translate`: the degree of a number that has moved too;
* `toList_ofSteps_translate`: the samples have moved, and there are as many of them;
* `Carried`: what stays true of two centroids while they are summed up, `Carried.add` and
  `carried_moments`, and so `centroid_translate`;
* `meanOf_translate`, `meanOfMaximum_translate`: the mean of maximum;
* `crisp_value_translate`: both methods.
-/

namespace FuzzyInference

open Exact (finite)

/-! ## What has moved -/

section

variable {α : Type} [Add α]

def Point.translate (c : α) (p : Point α) : Point α := ⟨p.x + c, p.y⟩

def Segment.translate (c : α) (s : Segment α) : Segment α :=
  ⟨s.first.translate c, s.last.translate c⟩

namespace FuzzySet

mutual

/-- The set moved along the scale. Only its parameters are on the scale, so that the degree of a
constant stays what it is. -/
def translate (c : α) : FuzzySet α → FuzzySet α
  | .constant y => .constant y
  | .linear a b => .linear (a + c) (b + c)
  | .triangular a b d => .triangular (a + c) (b + c) (d + c)
  | .trapezoid a b d e => .trapezoid (a + c) (b + c) (d + c) (e + c)
  | .inverted m => .inverted (m.translate c)
  | .min ms => .min (translateList c ms)
  | .max ms => .max (translateList c ms)

def translateList (c : α) : List (FuzzySet α) → List (FuzzySet α)
  | [] => []
  | m :: ms => m.translate c :: translateList c ms

end

end FuzzySet

end

variable {c : Rat}

/-! ## Degrees -/

namespace Exact

variable {a b : Exact}

theorem add_finite_le_add_finite_iff : a + finite c ≤ b + finite c ↔ a ≤ b := by
  cases a with
  | finite p =>
    cases b with
    | finite q =>
      rw [finite_add_finite, finite_add_finite, finite_le_finite, finite_le_finite]
      exact add_le_add_iff_right c
    | undefined | negInf | posInf => exact Iff.rfl
  | undefined | negInf | posInf => cases b <;> exact Iff.rfl

theorem add_finite_lt_add_finite_iff : a + finite c < b + finite c ↔ a < b := by
  rw [Scalar.Comparable.lt_iff, Scalar.Comparable.lt_iff, add_finite_le_add_finite_iff,
    add_finite_le_add_finite_iff]

theorem add_finite_beq_add_finite : (a + finite c == b + finite c) = (a == b) := by
  rw [Bool.eq_iff_iff, Scalar.Comparable.beq_iff, Scalar.Comparable.beq_iff,
    add_finite_le_add_finite_iff, add_finite_le_add_finite_iff]

/-- A distance does not move. -/
theorem add_finite_sub_add_finite : a + finite c - (b + finite c) = a - b := by
  cases a with
  | finite p =>
    cases b with
    | finite q =>
      rw [finite_add_finite, finite_add_finite, finite_sub_finite, finite_sub_finite,
        add_sub_add_right_eq_sub]
    | undefined | negInf | posInf => rfl
  | undefined | negInf | posInf => cases b <;> rfl

theorem isFinite_add_finite : Scalar.isFinite (a + finite c) = Scalar.isFinite a := by
  cases a <;> rfl

end Exact

open Exact (add_finite_le_add_finite_iff add_finite_lt_add_finite_iff add_finite_beq_add_finite
  add_finite_sub_add_finite)

namespace Segment

variable (s : Segment Exact) (x : Exact)

theorem covers_translate : (s.translate (finite c)).covers (x + finite c) = s.covers x := by
  rw [Bool.eq_iff_iff, covers_iff, covers_iff]
  exact and_congr add_finite_le_add_finite_iff add_finite_le_add_finite_iff

theorem value_translate : (s.translate (finite c)).value (x + finite c) = s.value x := by
  unfold value translate Point.translate
  rw [add_finite_beq_add_finite, add_finite_sub_add_finite, add_finite_sub_add_finite]

end Segment

theorem segments_translate (c : Exact) (p : Point Exact) (rest : List (Point Exact)) :
    segments (p.translate c) (rest.map (.translate c)) =
      (segments p rest).map (.translate c) := by
  induction rest generalizing p with
  | nil => rfl
  | cons q rest ih =>
    rw [List.map_cons, segments, ih, segments, List.map_cons]
    rfl

/-- A chain that has moved has its ordinates at numbers that have moved. -/
theorem interpolate_translate (p : Point Exact) (rest : List (Point Exact)) (x : Exact) :
    interpolate (p.translate (finite c)) (rest.map (.translate (finite c))) (x + finite c) =
      interpolate p rest x := by
  have covers : (fun s : Segment Exact => s.covers (x + finite c)) ∘ Segment.translate (finite c) =
      fun s => s.covers x := funext fun s => s.covers_translate x
  unfold interpolate
  apply if_congr add_finite_lt_add_finite_iff rfl
  rw [segments_translate, List.find?_map, covers]
  cases (segments p rest).find? (·.covers x) with
  | none =>
    simp only [Option.map_none, ← List.map_cons, List.getLast_map]
    rfl
  | some s => exact s.value_translate x

namespace FuzzySet

variable (a b d e x : Exact)

theorem triangleDegree_translate :
    triangleDegree (a + finite c) (b + finite c) (d + finite c) (x + finite c) =
      triangleDegree a b d x := by
  unfold triangleDegree
  simp only [add_finite_le_add_finite_iff, add_finite_beq_add_finite]
  exact congrArg _ (interpolate_translate ⟨a, 0⟩ [⟨b, 1⟩, ⟨d, 0⟩] x)

theorem trapezoidDegree_translate :
    trapezoidDegree (a + finite c) (b + finite c) (d + finite c) (e + finite c) (x + finite c) =
      trapezoidDegree a b d e x := by
  unfold trapezoidDegree
  simp only [add_finite_le_add_finite_iff]
  exact congrArg (ite _ 1 <| ite _ 0 ·)
    (interpolate_translate ⟨a, 0⟩ [⟨b, 1⟩, ⟨d, 1⟩, ⟨e, 0⟩] x)

mutual

/-- What has moved is to the same degree in the set that has moved with it. -/
theorem degree_translate (c : Rat) (m : FuzzySet Exact) (x : Exact) :
    (m.translate (finite c)).degree (x + finite c) = m.degree x := by
  match m with
  | .constant y => rw [translate, degree, degree]
  | .linear a b =>
    rw [translate, degree, degree]
    exact interpolate_translate ⟨a, 0⟩ [⟨b, 1⟩] x
  | .triangular a b d => rw [translate, degree, degree, triangleDegree_translate]
  | .trapezoid a b d e => rw [translate, degree, degree, trapezoidDegree_translate]
  | .inverted m => rw [translate, degree, degree, degree_translate c m x]
  | .min ms => rw [translate, degree, degree, degrees_translateList c ms x]
  | .max ms => rw [translate, degree, degree, degrees_translateList c ms x]

theorem degrees_translateList (c : Rat) (ms : List (FuzzySet Exact)) (x : Exact) :
    degrees (translateList (finite c) ms) (x + finite c) = degrees ms x := by
  match ms with
  | [] => rfl
  | m :: ms =>
    rw [translateList, degrees, degrees, degree_translate c m x, degrees_translateList c ms x]

end

end FuzzySet

/-! ## Samples -/

section

variable (p r c : Rat)

theorem midpoint_translate :
    (Range.mk (finite (p + c)) (finite (r + c))).midpoint =
      (Range.mk (finite p) (finite r)).midpoint + finite c := by
  rw [Range.midpoint_finite, Range.midpoint_finite, Exact.finite_add_finite]
  exact congrArg finite (by ring)

theorem sampleable_translate :
    Scalar.sampleable (finite (p + c)) (finite (r + c)) =
      Scalar.sampleable (finite p) (finite r) := by
  unfold Scalar.sampleable
  simp only [← Exact.finite_add_finite, Exact.isFinite_add_finite, add_finite_lt_add_finite_iff]

theorem gridPoint_add_right (width : Rat) (k : Nat) :
    gridPoint (p + c) (r + c) width k = gridPoint p r width k + c := by
  rw [gridPoint, gridPoint, add_right_comm, min_add_add_right]

theorem countOf_translate (width : Exact) :
    Samples.countOf ⟨finite (p + c), finite (r + c)⟩ width =
      Samples.countOf ⟨finite p, finite r⟩ width := by
  unfold Samples.countOf
  simp only [← Exact.finite_add_finite, Exact.isFinite_add_finite, add_finite_le_add_finite_iff,
    add_finite_sub_add_finite]

/-- The samples move with the range, the one that is cut off included. -/
theorem toList_ofSteps_translate (n : Nat) :
    (Samples.ofSteps ⟨finite (p + c), finite (r + c)⟩ n).toList =
      (Samples.ofSteps ⟨finite p, finite r⟩ n).toList.map (· + finite c) := by
  rw [Samples.toList_ofSteps, Samples.toList_ofSteps, add_sub_add_right_eq_sub, countOf_translate,
    List.map_map, List.map_map, List.map_map]
  exact List.map_congr_left fun k _ => congrArg finite (gridPoint_add_right p r c _ k)

end

/-! ## The centroid -/

/-- The moments of samples and those of the samples moved by `c`. Each unit of weight has been
carried that far. An infinite or undefined weight leaves no number in either, and so no centre. -/
inductive Carried (c : Rat) : Exact × Exact → Exact × Exact → Prop
  | numbers (weighted total : Rat) :
      Carried c (finite weighted, finite total) (finite (weighted + c * total), finite total)
  | lost {weighted weighted' total : Exact} (first : Scalar.isFinite weighted = false)
      (second : Scalar.isFinite weighted' = false) (both : Scalar.isFinite total = false) :
      Carried c (weighted, total) (weighted', total)

namespace Exact

variable {a b : Exact}

theorem isFinite_add_eq (a b : Exact) :
    Scalar.isFinite (a + b) = (Scalar.isFinite a && Scalar.isFinite b) := by
  cases a <;> cases b <;> rfl

/-- No finite factor makes a number of what is none. -/
theorem isFinite_mul_finite (h : Scalar.isFinite a = false) (q : Rat) :
    Scalar.isFinite (a * finite q) = false := by
  have signed (q : Rat) : Scalar.isFinite (signedInf q) = false := by
    unfold signedInf
    split
    · rfl
    · split
      · rfl
      · rfl
  cases a with
  | finite => cases h
  | undefined => rfl
  | negInf => exact signed (-q)
  | posInf => exact signed q

theorem div_eq_undefined (ha : Scalar.isFinite a = false) (hb : Scalar.isFinite b = false) :
    a / b = undefined := by
  cases a with
  | finite => cases ha
  | undefined => rfl
  | negInf | posInf =>
    cases b with
    | finite => cases hb
    | undefined | negInf | posInf => rfl

end Exact

namespace Carried

variable {sums sums' : Exact × Exact}

theorem total_eq (h : Carried c sums sums') : sums'.2 = sums.2 := by
  cases h with
  | numbers | lost => rfl

/-- The moments stay carried with one more sample and the place it has moved to. -/
theorem add (h : Carried c sums sums') (y : Exact) (x : Rat) :
    Carried c (sums.1 + y * finite x, sums.2 + y) (sums'.1 + y * finite (x + c), sums'.2 + y) := by
  cases h with
  | numbers weighted total =>
    by_cases hy : Scalar.isFinite y = true
    · obtain ⟨q, rfl⟩ := Exact.isFinite_iff.1 hy
      have carried : weighted + c * total + q * (x + c) =
          weighted + q * x + c * (total + q) := by ring
      have sums := numbers (c := c) (weighted + q * x) (total + q)
      rw [← carried] at sums
      exact sums
    · rw [Bool.not_eq_true] at hy
      have moment (x : Rat) := Exact.isFinite_mul_finite hy x
      apply lost
      · simp [Exact.isFinite_add_eq, moment]
      · simp [Exact.isFinite_add_eq, moment]
      · simp [Exact.isFinite_add_eq, hy]
  | lost first second both =>
    apply lost
    · simp [Exact.isFinite_add_eq, first]
    · simp [Exact.isFinite_add_eq, second]
    · simp [Exact.isFinite_add_eq, both]

/-- The centre of gravity has moved as far as the samples. -/
theorem div_eq (h : Carried c sums sums') (weighty : ¬ (sums.2 == 0) = true) :
    sums'.1 / sums.2 = sums.1 / sums.2 + finite c := by
  cases h with
  | numbers weighted total =>
    have weighs : total ≠ 0 := by
      rintro rfl
      exact weighty rfl
    simp only
    rw [Exact.finite_div_finite _ weighs, Exact.finite_div_finite _ weighs, Exact.finite_add_finite,
      add_div, mul_div_cancel_right₀ c weighs]
  | lost first second both =>
    simp only
    rw [Exact.div_eq_undefined first both, Exact.div_eq_undefined second both]
    rfl

end Carried

section

variable (m : FuzzySet Exact) (p r c : Rat) (steps : Nat)

theorem carried_moments (xs : List Rat) :
    Carried c (moments m (xs.map finite))
      (moments (m.translate (finite c)) ((xs.map finite).map (· + finite c))) := by
  unfold moments
  rw [List.foldl_map, List.foldl_map, List.foldl_map]
  apply List.foldl_rel
  · have start := Carried.numbers (c := c) 0 0
    rw [mul_zero, add_zero] at start
    exact start
  · intro x _ sums sums' carried
    simp only [FuzzySet.degree_translate]
    exact carried.add (m.degree (finite x)) x

theorem centroid_translate :
    centroid steps (m.translate (finite c)) ⟨finite (p + c), finite (r + c)⟩ =
      centroid steps m ⟨finite p, finite r⟩ + finite c := by
  unfold centroid
  rw [sampleable_translate]
  split
  · exact midpoint_translate p r c
  · obtain ⟨xs, samples⟩ := Samples.exists_finite p r steps
    have carried := carried_moments m c xs
    simp only
    rw [toList_ofSteps_translate, samples, carried.total_eq]
    split
    · exact midpoint_translate p r c
    · next weighty => exact carried.div_eq weighty

/-! ## The mean of maximum -/

theorem peak_translate (samples : List Exact) :
    peak (m.translate (finite c)) (samples.map (· + finite c)) = peak m samples := by
  unfold peak
  rw [List.map_map]
  exact congrArg (List.foldl _ _) (List.map_congr_left fun x _ => m.degree_translate c x)

theorem samplesAt_translate (height : Exact) (samples : List Exact) :
    samplesAt (m.translate (finite c)) height (samples.map (· + finite c)) =
      (samplesAt m height samples).map (· + finite c) := by
  unfold samplesAt
  rw [List.filter_map]
  simp only [Function.comp_def, FuzzySet.degree_translate]

/-- The mean moves with the numbers. -/
theorem meanOf_translate {xs : List Rat} (nonempty : xs ≠ []) :
    meanOf ((xs.map finite).map (· + finite c)) = meanOf (xs.map finite) + finite c := by
  have moved : (xs.map finite).map (· + finite c) = (xs.map (· + c)).map finite := by
    rw [List.map_map, List.map_map]
    rfl
  have count : (xs.length : Rat) ≠ 0 := Nat.cast_ne_zero.2 (List.length_eq_zero_iff.not.2 nonempty)
  have sum : (xs.map (· + c)).sum = xs.sum + xs.length * c := by
    rw [List.sum_map_add, List.map_id', List.map_const', List.sum_replicate, nsmul_eq_mul]
  rw [moved, meanOf_finite (List.map_eq_nil_iff.not.2 nonempty), meanOf_finite nonempty,
    List.length_map, sum, add_div, mul_div_cancel_left₀ c count, Exact.finite_add_finite]

theorem meanOfMaximum_translate :
    meanOfMaximum steps (m.translate (finite c)) ⟨finite (p + c), finite (r + c)⟩ =
      meanOfMaximum steps m ⟨finite p, finite r⟩ + finite c := by
  unfold meanOfMaximum
  rw [sampleable_translate]
  split
  · exact midpoint_translate p r c
  · obtain ⟨xs, samples⟩ := Samples.exists_finite p r steps
    rw [toList_ofSteps_translate, samples]
    simp only [peak_translate, samplesAt_translate, List.isEmpty_map]
    split
    · exact midpoint_translate p r c
    · split
      · exact midpoint_translate p r c
      · next maximal =>
        -- The maximal samples are finite, as all samples are.
        generalize peak m (xs.map finite) = height at maximal ⊢
        rw [samplesAt, List.filter_map] at maximal ⊢
        apply meanOf_translate
        rintro empty
        rw [empty] at maximal
        exact maximal rfl

end

/-- Both methods move with the scale. Adding `c` to the two ends of a range and to all parameters in
a fuzzy set adds `c` to the crisp value, whatever the fuzzy set, the range and the number of steps,
and also where the answer is the midpoint of the range or undefined. -/
theorem crisp_value_translate (m : FuzzySet Exact) (c p r : Rat) (steps : Nat) :
    centroid steps (m.translate (finite c)) ⟨finite (p + c), finite (r + c)⟩ =
        centroid steps m ⟨finite p, finite r⟩ + finite c ∧
      meanOfMaximum steps (m.translate (finite c)) ⟨finite (p + c), finite (r + c)⟩ =
        meanOfMaximum steps m ⟨finite p, finite r⟩ + finite c :=
  ⟨centroid_translate m p r c steps, meanOfMaximum_translate m p r c steps⟩

end FuzzyInference
