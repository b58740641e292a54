import FuzzyInference.Number.Binary64
import FuzzyInference.Proofs.Comparison
import Mathlib

/-!
# Comparing binary64 numbers

Binary64 numbers are compared through the value that their bits stand for. A list of integers to
every such value, compared from the front, gives the same answers, so the order of these lists is
the order of the numbers.

* `Binary64.key?`: the list of a number, none for an undefined one;
* `Binary64.compare_eq`: two numbers compare as their lists do;
* the instances `Scalar.Ordered Float` and `Scalar.Comparable Float`.
-/

namespace FuzzyInference

open Float.Model (UnpackedFloat)

namespace Binary64

/-! ## Keys -/

theorem compare_neg_neg (a b : Int) : compare (-a) (-b) = (compare a b).swap := by
  rw [Int.compare_swap, Int.compare_eq_ite_lt, Int.compare_eq_ite_lt]
  simp only [Int.neg_lt_neg_iff]

theorem compare_cast (m n : Nat) : compare (m : Int) n = compare m n := by
  rw [Int.compare_eq_ite_lt, Nat.compare_eq_ite_lt]
  simp only [Int.ofNat_lt]

/-- Infinities at the two ends, zero in the middle, and the other numbers by exponent and mantissa
between them. The negative ones come the other way round. -/
def key? : UnpackedFloat → Option (List Int)
  | .notANumber => none
  | .infinity .negative => some [-2]
  | .finite .negative m e _ => some [-1, -e, -m]
  | .zero _ => some [0]
  | .finite .positive m e _ => some [1, e, m]
  | .infinity .positive => some [2]

/-- Between lists of one class the exponents come first, and the mantissas behind them. -/
theorem compare_triples (c e f m n : Int) :
    compare [c, e, m] [c, f, n] = (compare e f).then (compare m n) := by
  have same : compare c c = .eq := Std.ReflCmp.compare_self
  simp only [List.compare_cons_cons, List.compare_nil_nil, same, Ordering.then_eq,
    Ordering.eq_then]

theorem compare_eq (a b : UnpackedFloat) :
    a.compare b = (key? a).bind fun x => (key? b).map (compare x) := by
  rcases a with (_ | _) | _ | _ | ⟨_ | _, m, e, hm⟩ <;>
    rcases b with (_ | _) | _ | _ | ⟨_ | _, n, f, hn⟩ <;> try rfl
  · -- Two negative numbers.
    have keys : compare [-1, -e, -(m : Int)] [-1, -f, -(n : Int)] =
        ((compare e f).then (compare m n)).swap := by
      rw [compare_triples, compare_neg_neg, compare_neg_neg, compare_cast, Ordering.swap_then]
    exact congrArg some keys.symm
  · -- Two positive numbers.
    have keys : compare [1, e, (m : Int)] [1, f, (n : Int)] =
        (compare e f).then (compare m n) := by
      rw [compare_triples, compare_cast]
    exact congrArg some keys.symm

/-- Only infinity is at the upper end of the order. -/
theorem eq_infinity_of_le_key {u : UnpackedFloat} {x : List Int} (key : key? u = some x)
    (above : (compare [2] x).isLE = true) : u = .infinity .positive := by
  cases u with
  | notANumber => cases key
  | infinity s =>
    cases s with
    | negative =>
      cases key
      cases above
    | positive => rfl
  | zero s =>
    cases key
    cases above
  | finite s m e hm => cases s <;> cases key <;> cases above

/-- Only negative infinity is at the lower end of the order. -/
theorem eq_infinity_of_key_le {u : UnpackedFloat} {x : List Int} (key : key? u = some x)
    (below : (compare x [-2]).isLE = true) : u = .infinity .negative := by
  cases u with
  | notANumber => cases key
  | infinity s =>
    cases s with
    | negative => rfl
    | positive =>
      cases key
      cases below
  | zero s =>
    cases key
    cases below
  | finite s m e hm => cases s <;> cases key <;> cases below

variable {a b c : Float}

def order? (a : Float) : Option (List Int) := key? a.toModel.unpack

def compare? (a b : Float) : Option Ordering := a.toModel.unpack.compare b.toModel.unpack

theorem compare?_eq_some_iff {o : Ordering} :
    compare? a b = some o ↔ ∃ x y, order? a = some x ∧ order? b = some y ∧ compare x y = o := by
  rw [compare?, compare_eq]
  simp only [Option.bind_eq_some_iff, Option.map_eq_some_iff, order?, exists_and_left]

/-! ## The three comparisons -/

theorem le_iff : a ≤ b ↔ ∃ o, compare? a b = some o ∧ o.isLE = true := by
  have model : a ≤ b ↔ (compare? a b).any (·.isLE) = true := decide_eq_true_iff
  rw [model, Option.any_eq_true]

theorem lt_iff : a < b ↔ compare? a b = some .lt := by
  have model : a < b ↔ (compare? a b == some .lt) = true := decide_eq_true_iff
  rw [model, beq_iff_eq]

theorem beq_iff : (a == b) = true ↔ compare? a b = some .eq := by
  have model : (a == b) = true ↔ (compare? a b == some .eq) = true := Iff.rfl
  rw [model, beq_iff_eq]

theorem defined_iff : Scalar.Defined a ↔ ∃ x, order? a = some x := by
  have equal : Scalar.Defined a ↔ compare? a a = some .eq := beq_iff
  rw [equal, compare?_eq_some_iff]
  constructor
  · rintro ⟨x, -, hx, -⟩
    exact ⟨x, hx⟩
  · rintro ⟨x, hx⟩
    exact ⟨x, x, hx, hx, Std.ReflCmp.compare_self⟩

theorem le_iff_keys :
    a ≤ b ↔ ∃ x y, order? a = some x ∧ order? b = some y ∧ (compare x y).isLE = true := by
  rw [le_iff]
  simp only [compare?_eq_some_iff]
  constructor
  · rintro ⟨o, ⟨x, y, hx, hy, rfl⟩, h⟩
    exact ⟨x, y, hx, hy, h⟩
  · rintro ⟨x, y, hx, hy, h⟩
    exact ⟨_, ⟨x, y, hx, hy, rfl⟩, h⟩

theorem le_trans (hab : a ≤ b) (hbc : b ≤ c) : a ≤ c := by
  obtain ⟨x, y, hx, hy, hxy⟩ := le_iff_keys.1 hab
  obtain ⟨y', z, hy', hz, hyz⟩ := le_iff_keys.1 hbc
  rw [hy] at hy'
  obtain rfl := Option.some.inj hy'
  exact le_iff_keys.2 ⟨x, z, hx, hz, Std.TransCmp.isLE_trans hxy hyz⟩

/-- Swapping two numbers swaps their comparison. -/
theorem compare?_swap {o : Ordering} (h : compare? a b = some o) :
    compare? b a = some o.swap := by
  obtain ⟨x, y, hx, hy, rfl⟩ := compare?_eq_some_iff.1 h
  exact compare?_eq_some_iff.2 ⟨y, x, hy, hx, Std.OrientedCmp.eq_swap⟩

theorem le_total (ha : Scalar.Defined a) (hb : Scalar.Defined b) : a ≤ b ∨ b ≤ a := by
  obtain ⟨x, hx⟩ := defined_iff.1 ha
  obtain ⟨y, hy⟩ := defined_iff.1 hb
  have compared : compare? a b = some (compare x y) :=
    compare?_eq_some_iff.2 ⟨x, y, hx, hy, rfl⟩
  cases h : (compare x y).isLE with
  | true => exact .inl (le_iff.2 ⟨_, compared, h⟩)
  | false =>
    right
    refine le_iff.2 ⟨_, compare?_swap compared, ?_⟩
    revert h
    cases compare x y <;> decide

/-! ## Infinities -/

section Infinities

open Float.Model.UnpackedFloat

/-- Numbers with the same unpacked form have the same bits. -/
theorem eq_of_unpack_eq (h : a.toModel.unpack = b.toModel.unpack) : a = b := by
  have bits := (unpack_inj_of_valid a.toModel.valid b.toModel.valid).1 h
  exact Float.toBits_inj.1 (UInt64.toBitVec_inj.1 bits)

theorem eq_posInf (h : Scalar.posInf ≤ a) : Scalar.posInf = a := by
  obtain ⟨x, y, hx, hy, above⟩ := le_iff_keys.1 h
  have top : order? (Scalar.posInf : Float) = some [2] := by decide +kernel
  obtain rfl := Option.some.inj (top.symm.trans hx)
  have value : (Scalar.posInf : Float).toModel.unpack = .infinity .positive := rfl
  exact eq_of_unpack_eq (value.trans (eq_infinity_of_le_key hy above).symm)

theorem eq_negInf (h : a ≤ Scalar.negInf) : Scalar.negInf = a := by
  obtain ⟨x, y, hx, hy, below⟩ := le_iff_keys.1 h
  have bottom : order? (Scalar.negInf : Float) = some [-2] := by decide +kernel
  obtain rfl := Option.some.inj (bottom.symm.trans hy)
  have value : (Scalar.negInf : Float).toModel.unpack = .infinity .negative := rfl
  exact eq_of_unpack_eq (value.trans (eq_infinity_of_key_le hx below).symm)

end Infinities

end Binary64

instance : Scalar.Ordered Float where
  defined_of_le h := by
    obtain ⟨x, y, hx, hy, -⟩ := Binary64.le_iff_keys.1 h
    exact ⟨Binary64.defined_iff.2 ⟨x, hx⟩, Binary64.defined_iff.2 ⟨y, hy⟩⟩
  le_trans := Binary64.le_trans
  le_total := Binary64.le_total
  eq_posInf := Binary64.eq_posInf
  eq_negInf := Binary64.eq_negInf

instance : Scalar.Comparable Float where
  beq_iff := by
    intro a b
    refine Iff.trans Binary64.beq_iff ?_
    constructor
    · intro equal
      have back := Binary64.compare?_swap equal
      exact ⟨Binary64.le_iff.2 ⟨_, equal, rfl⟩, Binary64.le_iff.2 ⟨_, back, rfl⟩⟩
    · rintro ⟨forth, back⟩
      obtain ⟨o, ho, below⟩ := Binary64.le_iff.1 forth
      obtain ⟨o', ho', above⟩ := Binary64.le_iff.1 back
      rw [Binary64.compare?_swap ho] at ho'
      obtain rfl := Option.some.inj ho'
      rw [ho, Ordering.eq_eq_of_isLE_of_isLE_swap below above]
  lt_iff := by
    intro a b
    refine Iff.trans Binary64.lt_iff ?_
    constructor
    · intro less
      refine ⟨Binary64.le_iff.2 ⟨_, less, rfl⟩, ?_⟩
      intro back
      obtain ⟨o, ho, above⟩ := Binary64.le_iff.1 back
      rw [Binary64.compare?_swap less] at ho
      obtain rfl := Option.some.inj ho
      cases above
    · rintro ⟨forth, notBack⟩
      obtain ⟨o, ho, below⟩ := Binary64.le_iff.1 forth
      cases o with
      | lt => exact ho
      | eq => exact absurd (Binary64.le_iff.2 ⟨_, Binary64.compare?_swap ho, rfl⟩) notBack
      | gt => cases below

end FuzzyInference
