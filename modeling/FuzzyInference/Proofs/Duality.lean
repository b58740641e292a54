import FuzzyInference.Inference.Context
import FuzzyInference.Proofs.ExactOrder

/-!
# De Morgan's laws

Negation is one less the degree, and that turns the order round, the infinities included. So it
turns a minimum into a maximum, and the seed of the one into the seed of the other.

* `Exact.one_sub_le_one_sub_iff`, `Exact.one_sub_one_sub`: the order is turned round, and back
  again;
* `Exact.one_sub_least`, `Exact.one_sub_greatest`: two scalars;
* `Exact.one_sub_foldl`: any number of them, none included;
* `de_morgan_laws`: premises and fuzzy sets.
-/

namespace FuzzyInference

open Scalar (least greatest)

namespace Exact

variable {a b : Exact}

theorem one_sub_finite (q : Rat) : (1 - finite q : Exact) = finite (1 - q) := finite_sub_finite 1 q

theorem one_sub_posInf : (1 - posInf : Exact) = negInf := rfl

theorem one_sub_negInf : (1 - negInf : Exact) = posInf := rfl

theorem one_sub_undefined : (1 - undefined : Exact) = undefined := rfl

theorem one_sub_one_sub (a : Exact) : 1 - (1 - a) = a := by
  cases a with
  | finite q => rw [one_sub_finite, one_sub_finite, sub_sub_cancel]
  | undefined | negInf | posInf => rfl

theorem one_sub_inj : 1 - a = 1 - b ↔ a = b := by
  constructor
  · intro h
    rw [← one_sub_one_sub a, h, one_sub_one_sub]
  · rintro rfl
    rfl

theorem one_sub_le_one_sub_iff : 1 - a ≤ 1 - b ↔ b ≤ a := by
  cases a with
  | finite p =>
    cases b with
    | finite q =>
      rw [one_sub_finite, one_sub_finite, finite_le_finite, finite_le_finite]
      exact sub_le_sub_iff_left 1
    | undefined | negInf | posInf => exact Iff.rfl
  | undefined | negInf | posInf => cases b <;> exact Iff.rfl

/-- What gives way as the lesser of two gives way as the greater of their complements. -/
theorem one_sub_least (a b : Exact) : 1 - least a b = greatest (1 - a) (1 - b) := by
  have undefined_iff : 1 - b = undefined ↔ b = undefined := by
    rw [← one_sub_inj, one_sub_one_sub, one_sub_undefined]
  unfold least greatest
  rw [apply_ite (1 - ·)]
  apply if_congr _ rfl rfl
  rw [Bool.or_eq_true, Bool.or_eq_true, decide_eq_true_eq, decide_eq_true_eq, bne_self_iff,
    bne_self_iff, one_sub_le_one_sub_iff, undefined_iff]

theorem one_sub_greatest (a b : Exact) : 1 - greatest a b = least (1 - a) (1 - b) := by
  rw [← one_sub_inj, one_sub_least, one_sub_one_sub, one_sub_one_sub, one_sub_one_sub]

/-- Where one choice turns into another, so does the choice among several. -/
theorem one_sub_foldl {choose dual : Exact → Exact → Exact}
    (turned : ∀ a b, 1 - choose a b = dual (1 - a) (1 - b)) (seed : Exact) (l : List Exact) :
    1 - l.foldl choose seed = (l.map (1 - ·)).foldl dual (1 - seed) := by
  rw [List.foldl_map]
  exact (List.foldl_hom (1 - ·) fun a b => (turned a b).symm).symm

theorem one_sub_foldl_least (l : List Exact) :
    1 - l.foldl least posInf = (l.map (1 - ·)).foldl greatest negInf := by
  rw [one_sub_foldl one_sub_least, one_sub_posInf]

theorem one_sub_foldl_greatest (l : List Exact) :
    1 - l.foldl greatest negInf = (l.map (1 - ·)).foldl least posInf := by
  rw [one_sub_foldl one_sub_greatest, one_sub_negInf]

end Exact

/-! ## Premises -/

namespace Premise

variable (ctx : Context Exact) (ps : List Premise)

/-- The negations fail where the premises do, and with the same error. -/
theorem degrees_map_not :
    degrees ctx (ps.map .not) = (degrees ctx ps).map (List.map (1 - ·)) := by
  induction ps with
  | nil => rfl
  | cons p ps ih =>
    rw [List.map_cons, degrees, degree, ih, degrees]
    cases p.degree ctx with
    | error e => rfl
    | ok y => cases degrees ctx ps <;> rfl

theorem degree_not_all : (not (all ps)).degree ctx = (any (ps.map .not)).degree ctx := by
  rw [degree, degree, degree, degrees_map_not]
  cases degrees ctx ps with
  | error e => rfl
  | ok ys => exact congrArg Except.ok (Exact.one_sub_foldl_least ys)

theorem degree_not_any : (not (any ps)).degree ctx = (all (ps.map .not)).degree ctx := by
  rw [degree, degree, degree, degrees_map_not]
  cases degrees ctx ps with
  | error e => rfl
  | ok ys => exact congrArg Except.ok (Exact.one_sub_foldl_greatest ys)

end Premise

/-! ## Fuzzy sets -/

namespace FuzzySet

variable (ms : List (FuzzySet Exact)) (x : Exact)

theorem degrees_map_inverted : degrees (ms.map .inverted) x = (degrees ms x).map (1 - ·) := by
  induction ms with
  | nil => rfl
  | cons m ms ih => rw [List.map_cons, degrees, degree, ih, degrees, List.map_cons]

theorem degree_inverted_min :
    (inverted (.min ms)).degree x = (FuzzySet.max (ms.map .inverted)).degree x := by
  rw [degree, degree, degree, degrees_map_inverted]
  exact Exact.one_sub_foldl_least _

theorem degree_inverted_max :
    (inverted (.max ms)).degree x = (FuzzySet.min (ms.map .inverted)).degree x := by
  rw [degree, degree, degree, degrees_map_inverted]
  exact Exact.one_sub_foldl_greatest _

end FuzzySet

/-- The negation of a conjunction comes to the same degree as the disjunction of the negations, or
fails with the same error, and the other way round. The complement of a minimum has the degrees of
the maximum of the complements, and the other way round. The lists may be empty, and degrees may be
infinite. -/
theorem de_morgan_laws :
    (∀ (ctx : Context Exact) (ps : List Premise),
      (Premise.not (.all ps)).degree ctx = (Premise.any (ps.map .not)).degree ctx ∧
        (Premise.not (.any ps)).degree ctx = (Premise.all (ps.map .not)).degree ctx) ∧
    ∀ (ms : List (FuzzySet Exact)) (x : Exact),
      (FuzzySet.inverted (.min ms)).degree x = (FuzzySet.max (ms.map .inverted)).degree x ∧
        (FuzzySet.inverted (.max ms)).degree x = (FuzzySet.min (ms.map .inverted)).degree x := by
  constructor
  · intro ctx ps
    exact ⟨Premise.degree_not_all ctx ps, Premise.degree_not_any ctx ps⟩
  · intro ms x
    exact ⟨FuzzySet.degree_inverted_min ms x, FuzzySet.degree_inverted_max ms x⟩

/-- Of nothing, both sides are an infinity. -/
example : (FuzzySet.inverted (.min ([] : List (FuzzySet Exact)))).degree 0 = .negInf := by rfl

end FuzzyInference
