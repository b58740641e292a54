import FuzzyInference.Defuzzification.Basic
import FuzzyInference.Proofs.UnitInterval

/-!
# No division by zero

Defuzzifying takes quotients in many places: on every segment of a fuzzy set, for the width of the
steps and their number, and for the crisp value itself. None of them is by zero where the numbers of
the fuzzy set are finite.

* `Exact.dividing`: exact scalars with any quotients by zero at all;
* `FuzzySet.degree_dividing`, `Samples.ofSteps_dividing`: which ones they are does not count for the
  degrees and for the samples;
* `centroid_dividing`, `meanOfMaximum_dividing`: nor for the crisp value.
-/

namespace FuzzyInference

open Exact (finite)

/-- Exact scalars with `quotient a` for the quotient of `a` by zero, and otherwise unchanged. What
is the same whatever `quotient` may be has come about without a division by zero. -/
@[reducible] def Exact.dividing (quotient : Exact → Exact) : Scalar Exact where
  __ := (inferInstance : Scalar Exact)
  div a b := if b = finite 0 then quotient a else a / b

variable (quotient : Exact → Exact)

theorem Exact.dividing_div (a : Exact) {b : Exact} (h : b ≠ finite 0) :
    @HDiv.hDiv Exact Exact Exact (@instHDiv Exact (Exact.dividing quotient).toDiv) a b = a / b :=
  if_neg h

/-- A segment that is not vertical has a width. -/
theorem Segment.width_ne_zero {s : Segment Exact} (first : Scalar.isFinite s.first.x = true)
    (last : Scalar.isFinite s.last.x = true) (sloped : ¬ (s.first.x == s.last.x) = true) :
    s.last.x - s.first.x ≠ finite 0 := by
  obtain ⟨p, hp⟩ := Exact.isFinite_iff.1 first
  obtain ⟨r, hr⟩ := Exact.isFinite_iff.1 last
  rw [hp, hr, Exact.beq_iff, not_and] at sloped
  rw [hp, hr, Exact.finite_sub_finite, ne_eq, Exact.finite.injEq, sub_eq_zero]
  exact fun same => sloped nofun (congrArg finite same.symm)

theorem Segment.value_dividing {s : Segment Exact} (first : Scalar.isFinite s.first.x = true)
    (last : Scalar.isFinite s.last.x = true) (x : Exact) :
    @Segment.value Exact (Exact.dividing quotient) s x = s.value x := by
  unfold Segment.value
  refine ite_congr rfl (fun _ => rfl) fun sloped => ?_
  exact congrArg (s.first.y + ·) (Exact.dividing_div quotient _ (width_ne_zero first last sloped))

theorem Segment.covers_dividing :
    @Segment.covers Exact (Exact.dividing quotient) = Segment.covers := rfl

theorem interpolate_dividing {start : Point Exact} {rest : List (Point Exact)}
    (h : ∀ p ∈ start :: rest, Scalar.isFinite p.x = true) (x : Exact) :
    @interpolate Exact (Exact.dividing quotient) start rest x = interpolate start rest x := by
  unfold interpolate
  refine ite_congr rfl (fun _ => rfl) fun _ => ?_
  rw [Segment.covers_dividing]
  cases found : (segments start rest).find? (·.covers x) with
  | none => rfl
  | some s =>
    obtain ⟨first, last⟩ := mem_segments (List.mem_of_find?_eq_some found)
    exact Segment.value_dividing quotient (h _ first) (h _ last) x

namespace FuzzySet

mutual

theorem degree_dividing {m : FuzzySet Exact} (h : ∀ x ∈ m.numbers, Scalar.isFinite x = true)
    (x : Exact) : @degree Exact (Exact.dividing quotient) m x = m.degree x := by
  match m with
  | .constant y => rfl
  | .linear a b =>
    unfold degree
    exact interpolate_dividing quotient (by simpa [numbers] using h) x
  | .triangular a b c =>
    unfold degree
    unfold triangleDegree
    refine if_congr Iff.rfl rfl ?_
    exact interpolate_dividing quotient (by simpa [numbers] using h) x
  | .trapezoid a b c d =>
    unfold degree
    unfold trapezoidDegree
    refine if_congr Iff.rfl rfl (if_congr Iff.rfl rfl ?_)
    exact interpolate_dividing quotient (by simpa [numbers] using h) x
  | .inverted m =>
    rw [numbers] at h
    unfold degree
    rw [degree_dividing h]
  | .min ms =>
    rw [numbers] at h
    unfold degree
    rw [degrees_dividing h]
    rfl
  | .max ms =>
    rw [numbers] at h
    unfold degree
    rw [degrees_dividing h]
    rfl

theorem degrees_dividing {ms : List (FuzzySet Exact)}
    (h : ∀ x ∈ numbersOfList ms, Scalar.isFinite x = true) (x : Exact) :
    @degrees Exact (Exact.dividing quotient) ms x = degrees ms x := by
  match ms with
  | [] => rfl
  | m :: ms =>
    simp only [numbersOfList, List.forall_mem_append] at h
    unfold degrees
    rw [degree_dividing h.1, degrees_dividing h.2]

end

end FuzzySet

namespace Exact

theorem ofNat_ne_zero {n : Nat} (h : n ≠ 0) : (Scalar.ofNat n : Exact) ≠ finite 0 := by
  intro zero
  exact h (Nat.cast_eq_zero.1 (Exact.finite.inj zero))

end Exact

namespace Samples

theorem countOf_dividing (range : Range Exact) (step : Exact) :
    @countOf Exact (Exact.dividing quotient) range step = countOf range step := by
  unfold countOf
  refine ite_congr rfl (fun sampled => ?_) fun _ => rfl
  have positive : step ≠ finite 0 := by
    rintro rfl
    rw [Bool.and_eq_true, decide_eq_true_eq] at sampled
    exact absurd sampled.2 (by decide)
  rw [Exact.dividing_div quotient _ positive]
  rfl

theorem ofStep_dividing (range : Range Exact) (step : Exact) :
    @ofStep Exact (Exact.dividing quotient) range step = ofStep range step :=
  congrArg (Samples.mk range.low range.high step 0) (countOf_dividing quotient range step)

theorem ofSteps_dividing (range : Range Exact) (steps : Nat) :
    @ofSteps Exact (Exact.dividing quotient) range steps = ofSteps range steps := by
  have counted : (Scalar.ofNat (max steps 1) : Exact) ≠ finite 0 := Exact.ofNat_ne_zero (by omega)
  have step := congrArg₂ (Scalar.greatest (α := Exact)) (Exact.dividing_div quotient 1 counted)
    (Exact.dividing_div quotient (range.high - range.low) counted)
  exact (congrArg (@ofStep Exact (Exact.dividing quotient) range) step).trans
    (ofStep_dividing quotient range _)

theorem toList_dividing (s : Samples Exact) :
    @toList Exact (Exact.dividing quotient) s = s.toList := rfl

end Samples

theorem Range.midpoint_dividing (range : Range Exact) :
    @midpoint Exact (Exact.dividing quotient) range = range.midpoint := by
  have two : (1 + 1 : Exact) ≠ finite 0 := by decide +kernel
  exact Exact.dividing_div quotient (range.low + range.high) two

section

variable {m : FuzzySet Exact} (h : ∀ x ∈ m.numbers, Scalar.isFinite x = true)

include h

theorem moments_dividing (samples : List Exact) :
    @moments Exact (Exact.dividing quotient) m samples = moments m samples := by
  unfold moments
  rw [funext (FuzzySet.degree_dividing quotient h)]

theorem peak_dividing (samples : List Exact) :
    @peak Exact (Exact.dividing quotient) m samples = peak m samples := by
  unfold peak
  rw [funext (FuzzySet.degree_dividing quotient h)]
  rfl

theorem samplesAt_dividing (height : Exact) (samples : List Exact) :
    @samplesAt Exact (Exact.dividing quotient) m height samples = samplesAt m height samples := by
  unfold samplesAt
  rw [funext (FuzzySet.degree_dividing quotient h)]
  rfl

theorem centroid_dividing (steps : Nat) (range : Range Exact) :
    @centroid Exact (Exact.dividing quotient) steps m range = centroid steps m range := by
  unfold centroid
  refine ite_congr rfl (fun _ => Range.midpoint_dividing quotient range) fun _ => ?_
  rw [Samples.ofSteps_dividing, Samples.toList_dividing, moments_dividing quotient h]
  -- The quotient is only taken where the weight is not zero.
  refine ite_congr rfl (fun _ => Range.midpoint_dividing quotient range) fun weighty => ?_
  refine Exact.dividing_div quotient _ fun zero => weighty (Exact.beq_iff.2 ⟨?_, zero⟩)
  exact fun other => Exact.noConfusion (zero.symm.trans other)

theorem meanOfMaximum_dividing (steps : Nat) (range : Range Exact) :
    @meanOfMaximum Exact (Exact.dividing quotient) steps m range = meanOfMaximum steps m range := by
  unfold meanOfMaximum
  refine ite_congr rfl (fun _ => Range.midpoint_dividing quotient range) fun _ => ?_
  simp only
  rw [Samples.ofSteps_dividing, Samples.toList_dividing, peak_dividing quotient h,
    samplesAt_dividing quotient h]
  refine ite_congr rfl (fun _ => Range.midpoint_dividing quotient range) fun _ => ?_
  refine ite_congr rfl (fun _ => Range.midpoint_dividing quotient range) fun nonempty => ?_
  refine Exact.dividing_div quotient _ (Exact.ofNat_ne_zero fun empty => nonempty ?_)
  exact List.isEmpty_iff.2 (List.length_eq_zero_iff.1 empty)

end

end FuzzyInference
