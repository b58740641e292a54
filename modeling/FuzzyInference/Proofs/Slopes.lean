import FuzzyInference.Proofs.Chains
import FuzzyInference.Proofs.UnitInterval

/-!
# How shapes rise and fall

In exact arithmetic, with parameters in order, any of which may coincide.

* `Ascent`: a way from zero up to one. `Ascent.mono`: the degree does not fall on it;
* `Descent`, `Descent.anti`: the way down again;
* `interpolate_up`, `interpolate_down`: segments of a chain. Where one goes straight up, its upper
  end counts;
* `ascent_linear`, `ascent_triangle`, `descent_trapezoid` and so on: the shapes;
* `FuzzySet.IsRise`, `FuzzySet.IsHill`: what this comes to at all numbers;
* `degrees_of_shapes`: linear shapes are rises, triangles and trapezoids are hills.
-/

namespace FuzzyInference

open Exact (finite finite_le_finite finite_lt_finite)

/-! ## Slopes -/

/-- A way from zero at `foot` up to one at `top`. Over a foot that is the top already the degree is
one. -/
structure Ascent (foot top : Rat) (f : Exact → Exact) : Prop where
  degree : ∀ x, IsDegree (f x)
  below : ∀ x, x ≤ finite foot → x ≠ finite top → f x = 0
  between : ∀ q, foot < q → q < top → f (finite q) = finite ((q - foot) / (top - foot))
  top : f (finite top) = 1

/-- A way from one at `top` down to zero at `foot`. -/
structure Descent (top foot : Rat) (f : Exact → Exact) : Prop where
  degree : ∀ x, IsDegree (f x)
  above : ∀ x, finite foot ≤ x → x ≠ finite top → f x = 0
  between : ∀ q, top < q → q < foot → f (finite q) = finite ((foot - q) / (foot - top))
  top : f (finite top) = 1

section

variable {a b : Rat} {f : Exact → Exact} {x y : Exact}

theorem Ascent.eq_zero (h : Ascent a b f) (ordered : a ≤ b) (hx : x < finite a) : f x = 0 := by
  apply h.below x (Scalar.le_of_lt hx)
  rintro rfl
  exact Scalar.not_le_of_lt hx (finite_le_finite.2 ordered)

theorem Descent.eq_zero (h : Descent a b f) (ordered : a ≤ b) (hx : finite b < x) : f x = 0 := by
  apply h.above x (Scalar.le_of_lt hx)
  rintro rfl
  exact Scalar.not_le_of_lt hx (finite_le_finite.2 ordered)

/-- Up to the top a greater number does not have a lower degree. -/
theorem Ascent.mono (h : Ascent a b f) (hxy : x ≤ y) (hy : y ≤ finite b) : f x ≤ f y := by
  by_cases top : y = finite b
  · rw [top, h.top]
    exact (h.degree x).2
  by_cases below : x ≤ finite a
  · have low : x ≠ finite b := by
      rintro rfl
      exact top (Exact.le_antisymm hy hxy)
    rw [h.below x below low]
    exact (h.degree y).1
  -- Both numbers are between the foot and the top.
  have started := (Exact.le_finite_or_finite_le (Exact.defined_of_le hxy).1 a).resolve_left below
  obtain ⟨q, rfl, -, -⟩ := Exact.exists_finite_of_le started (Exact.le_trans hxy hy)
  obtain ⟨r, rfl, -, hr⟩ := Exact.exists_finite_of_le (Exact.le_trans started hxy) hy
  rw [finite_le_finite, not_le] at below
  rw [finite_le_finite] at hxy
  have short : r < b := lt_of_le_of_ne hr fun same => top (congrArg finite same)
  have long : 0 ≤ b - a := by linarith
  rw [h.between q below (by linarith), h.between r (by linarith) short, finite_le_finite]
  exact div_le_div_of_nonneg_right (sub_le_sub_right hxy a) long

/-- From the top on a greater number does not have a higher degree. -/
theorem Descent.anti (h : Descent a b f) (hx : finite a ≤ x) (hxy : x ≤ y) : f y ≤ f x := by
  by_cases top : x = finite a
  · rw [top, h.top]
    exact (h.degree y).2
  by_cases above : finite b ≤ y
  · have high : y ≠ finite a := by
      rintro rfl
      exact top (Exact.le_antisymm hxy hx)
    rw [h.above y above high]
    exact (h.degree x).1
  have ended := (Exact.le_finite_or_finite_le (Exact.defined_of_le hxy).2 b).resolve_right above
  obtain ⟨q, rfl, hq, -⟩ := Exact.exists_finite_of_le hx (Exact.le_trans hxy ended)
  obtain ⟨r, rfl, -, -⟩ := Exact.exists_finite_of_le (Exact.le_trans hx hxy) ended
  rw [finite_le_finite, not_le] at above
  rw [finite_le_finite] at hxy
  have short : a < q := lt_of_le_of_ne hq fun same => top (congrArg finite same.symm)
  have long : 0 ≤ b - a := by linarith
  rw [h.between q short (by linarith), h.between r (by linarith) above, finite_le_finite]
  exact div_le_div_of_nonneg_right (sub_le_sub_left hxy b) long

end

/-! ## Segments -/

section

variable {a b q : Rat} {rest : List (Point Exact)}

/-- In a chain that starts with a segment up, the ordinate over it is the share of the way. -/
theorem interpolate_up (wide : a < b) (low : a ≤ q) (high : q ≤ b) :
    interpolate ⟨finite a, 0⟩ (⟨finite b, 1⟩ :: rest) (finite q) =
      finite ((q - a) / (b - a)) := by
  rw [interpolate_within (finite_le_finite.2 low) (finite_le_finite.2 high)]
  refine (Segment.value_finite wide.ne 0 1 q).trans (congrArg finite ?_)
  ring

/-- The upper end of the first segment counts, also where that goes straight up. -/
theorem interpolate_up_top (ordered : a ≤ b) :
    interpolate ⟨finite a, 0⟩ (⟨finite b, 1⟩ :: rest) (finite b) = 1 := by
  rcases ordered.eq_or_lt with rfl | wide
  · rw [interpolate_within (finite_le_finite.2 le_rfl) (finite_le_finite.2 le_rfl)]
    exact if_pos (Exact.finite_beq_finite.2 rfl)
  · rw [interpolate_up wide ordered le_rfl, div_self (sub_pos.2 wide).ne']
    rfl

/-- In a chain that starts with a segment down, the ordinate over it is the share of the way left.
-/
theorem interpolate_down (low : a < q) (high : q < b) :
    interpolate ⟨finite a, 1⟩ (⟨finite b, 0⟩ :: rest) (finite q) =
      finite ((b - q) / (b - a)) := by
  have wide := low.trans high
  have width := (sub_pos.2 wide).ne'
  rw [interpolate_within (finite_le_finite.2 low.le) (finite_le_finite.2 high.le)]
  refine (Segment.value_finite wide.ne 1 0 q).trans (congrArg finite ?_)
  field_simp
  ring

end

/-! ## Shapes -/

section

variable {a b c d : Rat}

theorem ascent_linear (ordered : a ≤ b) :
    Ascent a b (FuzzySet.linear (finite a) (finite b)).degree where
  degree x := by
    rw [FuzzySet.degree]
    apply isDegree_interpolate
    simpa using ⟨sound_of_isFinite rfl .zero, sound_of_isFinite rfl .one⟩
  below x hx low := by
    rw [FuzzySet.degree]
    by_cases back : finite a ≤ x
    · obtain rfl := Exact.le_antisymm hx back
      have wide : a < b := lt_of_le_of_ne ordered fun same => low (congrArg finite same)
      rw [interpolate_up wide le_rfl ordered, sub_self, zero_div]
      rfl
    · exact interpolate_of_lt (Scalar.Comparable.lt_iff.2 ⟨hx, back⟩)
  between q low high := by
    rw [FuzzySet.degree, interpolate_up (low.trans high) low.le high.le]
  top := by
    rw [FuzzySet.degree, interpolate_up_top ordered]

theorem linear_eq_one (ordered : a ≤ b) {x : Exact} (hx : finite b ≤ x) :
    (FuzzySet.linear (finite a) (finite b)).degree x = 1 := by
  by_cases top : x ≤ finite b
  · rw [Exact.le_antisymm top hx]
    exact (ascent_linear ordered).top
  · have past : finite b < x := Scalar.Comparable.lt_iff.2 ⟨hx, top⟩
    have started : ¬ x < finite a :=
      Scalar.not_lt_of_le (Exact.le_trans (finite_le_finite.2 ordered) hx)
    rw [FuzzySet.degree, interpolate_beyond started past, interpolate_nil]

theorem isDegree_triangle (x : Exact) :
    IsDegree ((FuzzySet.triangular (finite a) (finite b) (finite c)).degree x) := by
  rw [FuzzySet.degree]
  exact isDegree_triangleDegree rfl rfl rfl x

theorem triangle_outside {x : Exact} (outside : x ≤ finite a ∨ finite c ≤ x)
    (peak : x ≠ finite b) :
    (FuzzySet.triangular (finite a) (finite b) (finite c)).degree x = 0 := by
  rw [FuzzySet.degree, FuzzySet.triangleDegree_outside outside, if_neg]
  intro same
  exact peak (Exact.beq_iff.1 same).2

/-- Over the peak the degree is one, be it between the feet or not. -/
theorem triangle_peak :
    (FuzzySet.triangular (finite a) (finite b) (finite c)).degree (finite b) = 1 := by
  rw [FuzzySet.degree]
  by_cases outside : (finite b : Exact) ≤ finite a ∨ finite c ≤ finite b
  · rw [FuzzySet.triangleDegree_outside outside, if_pos (Exact.finite_beq_finite.2 rfl)]
  · rw [not_or, finite_le_finite, finite_le_finite, not_le, not_le] at outside
    obtain ⟨low, high⟩ := outside
    rw [FuzzySet.triangleDegree_inside (finite_lt_finite.2 low)
      (finite_lt_finite.2 high), interpolate_up_top low.le]

theorem ascent_triangle (hbc : b ≤ c) :
    Ascent a b (FuzzySet.triangular (finite a) (finite b) (finite c)).degree where
  degree := isDegree_triangle
  below x hx := triangle_outside (.inl hx)
  between q low high := by
    rw [FuzzySet.degree, FuzzySet.triangleDegree_inside (finite_lt_finite.2 low)
      (finite_lt_finite.2 (high.trans_le hbc)),
      interpolate_up (low.trans high) low.le high.le]
  top := triangle_peak

theorem descent_triangle (hab : a ≤ b) :
    Descent b c (FuzzySet.triangular (finite a) (finite b) (finite c)).degree where
  degree := isDegree_triangle
  above x hx := triangle_outside (.inr hx)
  between q low high := by
    have started := finite_lt_finite.2 (hab.trans_lt low)
    rw [FuzzySet.degree, FuzzySet.triangleDegree_inside started (finite_lt_finite.2 high),
      interpolate_beyond (Scalar.not_lt_of_le (Scalar.le_of_lt started))
        (finite_lt_finite.2 low),
      interpolate_down low high]
  top := triangle_peak

theorem isDegree_trapezoid (x : Exact) :
    IsDegree ((FuzzySet.trapezoid (finite a) (finite b) (finite c) (finite d)).degree x) := by
  rw [FuzzySet.degree]
  exact isDegree_trapezoidDegree rfl rfl rfl rfl x

theorem trapezoid_top {x : Exact} (low : finite b ≤ x) (high : x ≤ finite c) :
    (FuzzySet.trapezoid (finite a) (finite b) (finite c) (finite d)).degree x = 1 := by
  rw [FuzzySet.degree, FuzzySet.trapezoidDegree_top low high]

theorem ascent_trapezoid (hab : a ≤ b) (hbc : b ≤ c) (hcd : c ≤ d) :
    Ascent a b (FuzzySet.trapezoid (finite a) (finite b) (finite c) (finite d)).degree where
  degree := isDegree_trapezoid
  below x hx low := by
    rw [FuzzySet.degree, FuzzySet.trapezoidDegree_outside _ (.inl hx)]
    rintro ⟨top, -⟩
    exact low (Exact.le_antisymm (Exact.le_trans hx (finite_le_finite.2 hab)) top)
  between q low high := by
    have top : ¬ ((finite b : Exact) ≤ finite q ∧ (finite q : Exact) ≤ finite c) := by
      rintro ⟨top, -⟩
      exact high.not_ge (finite_le_finite.1 top)
    rw [FuzzySet.degree, FuzzySet.trapezoidDegree_inside top (finite_lt_finite.2 low)
      (finite_lt_finite.2 (high.trans_le (hbc.trans hcd))),
      interpolate_up (low.trans high) low.le high.le]
  top := trapezoid_top (finite_le_finite.2 le_rfl) (finite_le_finite.2 hbc)

theorem descent_trapezoid (hab : a ≤ b) (hbc : b ≤ c) (hcd : c ≤ d) :
    Descent c d (FuzzySet.trapezoid (finite a) (finite b) (finite c) (finite d)).degree where
  degree := isDegree_trapezoid
  above x hx high := by
    rw [FuzzySet.degree, FuzzySet.trapezoidDegree_outside _ (.inr hx)]
    rintro ⟨-, top⟩
    exact high (Exact.le_antisymm top (Exact.le_trans (finite_le_finite.2 hcd) hx))
  between q low high := by
    have top : ¬ ((finite b : Exact) ≤ finite q ∧ (finite q : Exact) ≤ finite c) := by
      rintro ⟨-, top⟩
      exact low.not_ge (finite_le_finite.1 top)
    have past := finite_lt_finite.2 (hbc.trans_lt low)
    have started := finite_lt_finite.2 ((hab.trans hbc).trans_lt low)
    rw [FuzzySet.degree,
      FuzzySet.trapezoidDegree_inside top started (finite_lt_finite.2 high),
      interpolate_beyond (Scalar.not_lt_of_le (Scalar.le_of_lt started)) past,
      interpolate_beyond (Scalar.not_lt_of_le (Scalar.le_of_lt past))
        (finite_lt_finite.2 low),
      interpolate_down low high]
  top := trapezoid_top (finite_le_finite.2 hbc) (finite_le_finite.2 le_rfl)

/-- The degree is zero below the foot and one from the top on, and a greater number never has a
lower degree. -/
structure FuzzySet.IsRise (m : FuzzySet Exact) (foot top : Exact) : Prop where
  below : ∀ x, x < foot → m.degree x = 0
  top : ∀ x, top ≤ x → m.degree x = 1
  mono : ∀ x y, x ≤ y → m.degree x ≤ m.degree y

/-- The degree is one on the whole top and zero outside the feet. Up to the top a greater number
does not have a lower degree, and from its end on none has a higher one. -/
structure FuzzySet.IsHill (m : FuzzySet Exact) (left leftTop rightTop right : Exact) : Prop where
  top : ∀ x, leftTop ≤ x → x ≤ rightTop → m.degree x = 1
  outside : ∀ x, x < left ∨ right < x → m.degree x = 0
  mono : ∀ x y, x ≤ y → y ≤ leftTop → m.degree x ≤ m.degree y
  anti : ∀ x y, rightTop ≤ x → x ≤ y → m.degree y ≤ m.degree x

theorem isRise_linear (ordered : a ≤ b) :
    (FuzzySet.linear (finite a) (finite b)).IsRise (finite a) (finite b) where
  below _ := (ascent_linear ordered).eq_zero ordered
  top _ := linear_eq_one ordered
  mono x y hxy := by
    have ascent := ascent_linear ordered
    by_cases top : y ≤ finite b
    · exact ascent.mono hxy top
    · -- Past the top the degree of `y` is one, and no degree is greater.
      have past := (Exact.le_finite_or_finite_le (Exact.defined_of_le hxy).2 b).resolve_left top
      rw [linear_eq_one ordered past]
      exact (ascent.degree x).2

/-- An ascent and a descent make a hill, if there are ones between them. -/
theorem isHill_of_ascent_of_descent {m : FuzzySet Exact} (hab : a ≤ b) (hcd : c ≤ d)
    (ascent : Ascent a b m.degree) (descent : Descent c d m.degree)
    (top : ∀ x, finite b ≤ x → x ≤ finite c → m.degree x = 1) :
    m.IsHill (finite a) (finite b) (finite c) (finite d) where
  top := top
  outside := by
    rintro x (low | high)
    · exact ascent.eq_zero hab low
    · exact descent.eq_zero hcd high
  mono _ _ := ascent.mono
  anti _ _ := descent.anti

end

/-- Over finite parameters in order, any of which may coincide, and at all numbers, the infinities
included: a linear shape rises from its foot to its top, a triangle is a hill whose top is a single
number, and a trapezoid is one with the top between its inner parameters. -/
theorem degrees_of_shapes :
    (∀ a b : Rat, a ≤ b →
      (FuzzySet.linear (finite a) (finite b)).IsRise (finite a) (finite b)) ∧
    (∀ a b c : Rat, a ≤ b → b ≤ c →
      (FuzzySet.triangular (finite a) (finite b) (finite c)).IsHill
        (finite a) (finite b) (finite b) (finite c)) ∧
    ∀ a b c d : Rat, a ≤ b → b ≤ c → c ≤ d →
      (FuzzySet.trapezoid (finite a) (finite b) (finite c) (finite d)).IsHill
        (finite a) (finite b) (finite c) (finite d) := by
  refine ⟨?_, ?_, ?_⟩
  · intro a b
    exact isRise_linear
  · intro a b c hab hbc
    apply isHill_of_ascent_of_descent hab hbc (ascent_triangle hbc) (descent_triangle hab)
    intro x low high
    rw [Exact.le_antisymm high low]
    exact triangle_peak
  · intro a b c d hab hbc hcd
    apply isHill_of_ascent_of_descent hab hcd (ascent_trapezoid hab hbc hcd)
      (descent_trapezoid hab hbc hcd)
    intro x
    exact trapezoid_top

/-- A step, a triangle that stands on its right foot, and a trapezoid between two walls. -/
theorem degrees_of_shapes_steep :
    ((2 : Rat) ≤ 2 ∧ (FuzzySet.linear (finite 2) (finite 2)).IsRise (finite 2) (finite 2)) ∧
    ((1 : Rat) ≤ 3 ∧ (3 : Rat) ≤ 3 ∧
      (FuzzySet.triangular (finite 1) (finite 3) (finite 3)).IsHill
        (finite 1) (finite 3) (finite 3) (finite 3)) ∧
    (0 : Rat) ≤ 0 ∧ (0 : Rat) ≤ 5 ∧ (5 : Rat) ≤ 5 ∧
      (FuzzySet.trapezoid (finite 0) (finite 0) (finite 5) (finite 5)).IsHill
        (finite 0) (finite 0) (finite 5) (finite 5) := by
  obtain ⟨linear, triangular, trapezoid⟩ := degrees_of_shapes
  have two : (2 : Rat) ≤ 2 := le_rfl
  have wide : (1 : Rat) ≤ 3 := by decide
  have three : (3 : Rat) ≤ 3 := le_rfl
  have zero : (0 : Rat) ≤ 0 := le_rfl
  have long : (0 : Rat) ≤ 5 := by decide
  have five : (5 : Rat) ≤ 5 := le_rfl
  exact ⟨⟨two, linear 2 2 two⟩, ⟨wide, three, triangular 1 3 3 wide three⟩, zero, long, five,
    trapezoid 0 0 5 5 zero long five⟩

end FuzzyInference
