import FuzzyInference.FuzzySet.Basic
import FuzzyInference.Proofs.Comparison

/-!
# Along a chain of segments

The ordinate of a chain at a number comes of one of its segments. Which one that is depends on how
the number compares to the points of the chain, and on no arithmetic.

* `interpolate_of_lt`: before the chain;
* `interpolate_within`: over the first segment;
* `interpolate_beyond`: past the first segment, where the chain behind it counts, and
  `interpolate_nil`: past all of them;
* `FuzzySet.triangleDegree_outside`, `FuzzySet.trapezoidDegree_top` and so on: the shapes that are
  a chain in part.
-/

namespace FuzzyInference

variable {α : Type} [Scalar α] {p q : Point α} {rest : List (Point α)} {a b c d x : α}

theorem interpolate_of_lt (h : x < p.x) : interpolate p rest x = p.y := if_pos h

/-- A chain of a single point has its ordinate everywhere. -/
theorem interpolate_nil (p : Point α) (x : α) : interpolate p [] x = p.y := by
  unfold interpolate
  split
  · rfl
  · rfl

section

variable [Scalar.Comparable α]

theorem interpolate_within (low : p.x ≤ x) (high : x ≤ q.x) :
    interpolate p (q :: rest) x = (Segment.mk p q).value x := by
  have covers : (Segment.mk p q).covers x = true := Segment.covers_iff.2 ⟨low, high⟩
  have found : (segments p (q :: rest)).find? (·.covers x) = some ⟨p, q⟩ :=
    List.find?_cons_of_pos covers
  rw [interpolate, if_neg (Scalar.not_lt_of_le low), found]

/-- Past the first segment the ordinate is that of the chain behind it. -/
theorem interpolate_beyond (started : ¬ x < p.x) (past : q.x < x) :
    interpolate p (q :: rest) x = interpolate q rest x := by
  have covers : ¬ (Segment.mk p q).covers x = true := by
    rw [Segment.covers_iff]
    rintro ⟨-, high⟩
    exact Scalar.not_le_of_lt past high
  have skipped : (segments p (q :: rest)).find? (·.covers x) =
      (segments q rest).find? (·.covers x) := List.find?_cons_of_neg covers
  have started' : ¬ x < q.x := Scalar.not_lt_of_le (Scalar.le_of_lt past)
  rw [interpolate, if_neg started, skipped, interpolate, if_neg started']
  rfl

end

/-! ## Shapes -/

namespace FuzzySet

theorem triangleDegree_outside (h : x ≤ a ∨ c ≤ x) :
    triangleDegree a b c x = if x == b then 1 else 0 := by
  rw [triangleDegree, if_pos]
  rwa [Bool.or_eq_true, decide_eq_true_eq, decide_eq_true_eq]

theorem trapezoidDegree_top (low : b ≤ x) (high : x ≤ c) : trapezoidDegree a b c d x = 1 := by
  rw [trapezoidDegree, if_pos]
  rw [Bool.and_eq_true, decide_eq_true_eq, decide_eq_true_eq]
  exact ⟨low, high⟩

theorem trapezoidDegree_outside (top : ¬ (b ≤ x ∧ x ≤ c)) (h : x ≤ a ∨ d ≤ x) :
    trapezoidDegree a b c d x = 0 := by
  rw [trapezoidDegree, if_neg, if_pos]
  · rwa [Bool.or_eq_true, decide_eq_true_eq, decide_eq_true_eq]
  · rwa [Bool.and_eq_true, decide_eq_true_eq, decide_eq_true_eq]

variable [Scalar.Comparable α]

theorem triangleDegree_inside (low : a < x) (high : x < c) :
    triangleDegree a b c x = interpolate ⟨a, 0⟩ [⟨b, 1⟩, ⟨c, 0⟩] x := by
  rw [triangleDegree, if_neg]
  rw [Bool.or_eq_true, decide_eq_true_eq, decide_eq_true_eq, not_or]
  exact ⟨Scalar.not_le_of_lt low, Scalar.not_le_of_lt high⟩

theorem trapezoidDegree_inside (top : ¬ (b ≤ x ∧ x ≤ c)) (low : a < x) (high : x < d) :
    trapezoidDegree a b c d x = interpolate ⟨a, 0⟩ [⟨b, 1⟩, ⟨c, 1⟩, ⟨d, 0⟩] x := by
  rw [trapezoidDegree, if_neg, if_neg]
  · rw [Bool.or_eq_true, decide_eq_true_eq, decide_eq_true_eq, not_or]
    exact ⟨Scalar.not_le_of_lt low, Scalar.not_le_of_lt high⟩
  · rwa [Bool.and_eq_true, decide_eq_true_eq, decide_eq_true_eq]

end FuzzySet

end FuzzyInference
