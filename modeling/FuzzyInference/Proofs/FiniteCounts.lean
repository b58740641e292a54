import FuzzyInference.Number.Binary64
import Mathlib

/-!
# Counts are finite numbers

A count below `2 ^ 64` is far from the end of the range of binary64. Rounding moves a value by
little, so it stays finite on the way through the format.

* `Binary64.Below`: values below a power of two;
* `below_roundWithAccuracy`, `below_unpack_pack`, `below_mul`: what rounding, packing and
  multiplication do to such a bound;
* `isFinite_toBinary64`: written counts.
-/

namespace FuzzyInference

open Float.Model (UnpackedFloat Format totalExponent)
open Float.Model.UnpackedFloat

namespace Binary64

/-! ## Bits of natural numbers -/

theorem log2_div_le (m k : Nat) : (m / 2 ^ k).log2 ≤ m.log2 - k := by
  by_cases zero : m / 2 ^ k = 0
  · simp [zero]
  · have positive : m ≠ 0 := by
      rintro rfl
      simp at zero
    have power : 2 ^ ((m / 2 ^ k).log2 + k) ≤ m := by
      rw [pow_add]
      exact (Nat.mul_le_mul_right _ (Nat.log2_self_le zero)).trans (Nat.div_mul_le_self m _)
    have := (Nat.le_log2 positive).2 power
    omega

theorem log2_le_of_le_succ {m n : Nat} (h : n ≤ m + 1) : n.log2 ≤ m.log2 + 1 := by
  by_cases zero : n = 0
  · simp [zero]
  · have bound := Nat.lt_log2_self (n := m)
    have power : n < 2 ^ (m.log2 + 2) := by
      rw [pow_succ]
      omega
    have := (Nat.log2_lt zero).2 power
    omega

theorem log2_mul_le {m n : Nat} (hm : 0 < m) (hn : 0 < n) :
    (m * n).log2 ≤ m.log2 + n.log2 + 1 := by
  have power : m * n < 2 ^ (m.log2 + n.log2 + 2) := by
    calc m * n < 2 ^ (m.log2 + 1) * 2 ^ (n.log2 + 1) :=
          Nat.mul_lt_mul'' Nat.lt_log2_self Nat.lt_log2_self
      _ = 2 ^ (m.log2 + n.log2 + 2) := by
          rw [← pow_add]
          congr 1
          omega
  have := (Nat.log2_lt (Nat.mul_pos hm hn).ne').2 power
  omega

/-! ## Rounding -/

/-- Zero, or a value whose size is below `2 ^ t`. -/
inductive Below (t : Int) : UnpackedFloat → Prop
  | zero (s : Sign) : Below t (.zero s)
  | finite {s : Sign} {m : Nat} {e : Int} {hm : 0 < m} (size : totalExponent m e ≤ t) :
      Below t (.finite s m e hm)

theorem Below.mono {s t : Int} {u : UnpackedFloat} (h : Below s u) (le : s ≤ t) : Below t u := by
  cases h with
  | zero s => exact .zero s
  | finite size => exact .finite (Int.le_trans size le)

theorem Below.isFinite {t : Int} {u : UnpackedFloat} (h : Below t u) : u.isFinite = true := by
  cases h <;> rfl

theorem mantissa_shiftRight (em : ExtendedMantissa) (k : Nat) :
    (em >>> k).mantissa = em.mantissa / 2 ^ k := by
  induction k with
  | zero => simp [HShiftRight.hShiftRight, Nat.repeat]
  | succ k ih =>
    change (ExtendedMantissa.shiftRightOne (em >>> k)).mantissa = _
    simp only [ExtendedMantissa.shiftRightOne, ih, Nat.div_div_eq_div_mul, Nat.pow_succ]

theorem mantissa_ofMantissaAndAccuracy (m : Nat) (a : Accuracy) :
    (ExtendedMantissa.ofMantissaAndAccuracy m a).mantissa = m := by
  cases a with
  | exact => rfl
  | inexact o => cases o <;> rfl

theorem roundToNearestEven_le (m : Nat) (a : Accuracy) : a.roundToNearestEven m ≤ m + 1 := by
  cases a with
  | exact => exact Nat.le_succ m
  | inexact o =>
    cases o with
    | lt => exact Nat.le_succ m
    | gt => exact Nat.le_refl _
    | eq =>
      simp only [Accuracy.roundToNearestEven]
      omega

theorem targetExponent_eq (t : Int) : Format.binary64.targetExponent t = max (t - 53) (-1074) := by
  simp only [Format.targetExponent]
  rfl

/-- Dropping bits that the format has no room for leaves the size where it is. -/
theorem totalExponent_shift_le (m : Nat) (e : Int) (a : Accuracy) :
    totalExponent (shiftToTargetExponent .binary64 m e a).1.mantissa
        (shiftToTargetExponent .binary64 m e a).2 ≤ max (totalExponent m e) (-1073) := by
  simp only [shiftToTargetExponent, shiftToExponent, mantissa_shiftRight,
    mantissa_ofMantissaAndAccuracy, targetExponent_eq, totalExponent]
  have bits := log2_div_le m (max ((m.log2 : Int) + 1 + e - 53) (-1074) - e).toNat
  omega

theorem totalExponent_rounded_le (em : ExtendedMantissa) (e : Int) :
    totalExponent em.roundedMantissa e ≤ totalExponent em.mantissa e + 1 := by
  have bits := log2_le_of_le_succ (roundToNearestEven_le em.mantissa em.accuracy)
  rw [← ExtendedMantissa.roundedMantissa] at bits
  simp only [totalExponent]
  omega

theorem below_roundWithAccuracy (s : Sign) (m : Nat) (e : Int) (a : Accuracy) :
    Below (max (totalExponent m e) (-1073) + 1) (roundWithAccuracy .binary64 s m e a) := by
  have first := totalExponent_shift_le m e a
  unfold roundWithAccuracy
  generalize shiftToTargetExponent .binary64 m e a = shifted at *
  obtain ⟨em, e₁⟩ := shifted
  have rounded := totalExponent_rounded_le em e₁
  have second := totalExponent_shift_le em.roundedMantissa e₁ .exact
  dsimp only at first second ⊢
  generalize shiftToTargetExponent .binary64 em.roundedMantissa e₁ .exact = last at *
  split
  · exact .zero s
  · apply Below.finite
    omega

theorem below_mul {t₁ t₂ : Int} {u v : UnpackedFloat} (hu : Below t₁ u) (hv : Below t₂ v) :
    Below (max (t₁ + t₂) (-1073) + 1) (UnpackedFloat.mul .binary64 u v) := by
  cases hu with
  | zero s => cases hv <;> exact .zero _
  | @finite s m e hm first =>
    cases hv with
    | zero s' => exact .zero _
    | @finite s' n f hn second =>
      have bits := log2_mul_le hm hn
      rw [totalExponent] at first second
      refine (below_roundWithAccuracy (s * s') (m * n) (e + f) .exact).mono ?_
      rw [totalExponent]
      omega

/-! ## Packing -/

theorem log2_lt_of_lt {m k : Nat} (hk : 0 < k) (h : m < 2 ^ k) : m.log2 < k := by
  by_cases zero : m = 0
  · rwa [zero, Nat.log2_zero]
  · exact (Nat.log2_lt zero).2 h

/-- A bit pattern is below a power of two as long as not all of its exponent bits are ones. -/
theorem below_unpack_packComponents (s : Sign) {exponent : BitVec 11} (mantissa : BitVec 52)
    (h : exponent ≠ -1#11) :
    Below (exponent.toNat - 1022)
      (UnpackedFloat.unpack .binary64 (packComponents .binary64 s exponent mantissa)) := by
  have bias : ((Format.binary64.exponentBias : Nat) : Int) = 1023 := by decide
  simp only [UnpackedFloat.unpack, unpackExponent_packComponents, unpackMantissa_packComponents,
    if_neg h, bias]
  split
  · split
    · exact .zero _
    · next zero _ =>
      -- A subnormal value.
      have bits := log2_lt_of_lt (by decide) mantissa.isLt
      apply Below.finite
      rw [totalExponent, zero]
      simp only [BitVec.toNat_ofNat]
      omega
  · have bits := log2_lt_of_lt (by decide) (1#1 ++ mantissa).isLt
    apply Below.finite
    rw [totalExponent]
    omega

/-- A value that is not too large is packed and unpacked without getting infinite. -/
theorem below_unpack_pack {t : Int} (small : t ≤ 972) {u : UnpackedFloat} (h : Below t u) :
    Below (max (t + 52) (-1022)) (Float.Model.pack u).unpack := by
  unfold Float.Model.unpack Float.Model.pack
  have bias : ((Format.binary64.exponentBias : Nat) : Int) = 1023 := by decide
  cases h with
  | zero s => exact (below_unpack_packComponents s 0 (by decide)).mono (by simp)
  | @finite s m e hm size =>
    rw [totalExponent] at size
    simp only [UnpackedFloat.pack, bias, Nat.cast_ofNat]
    have room : ¬ 2 ^ 11 ≤ (e + 1023 + 52).toNat + 1 := by omega
    rw [if_neg room]
    split
    · -- A normal value keeps its exponent.
      have same : (BitVec.ofNat 11 (e + 1023 + 52).toNat).toNat = (e + 1023 + 52).toNat := by
        rw [BitVec.toNat_ofNat]
        exact Nat.mod_eq_of_lt (by omega)
      have notOnes : BitVec.ofNat 11 (e + 1023 + 52).toNat ≠ -1#11 := by
        intro ones
        have all := congrArg BitVec.toNat ones
        rw [same] at all
        have top : (-1#11 : BitVec 11).toNat = 2047 := by decide
        omega
      refine (below_unpack_packComponents s _ notOnes).mono ?_
      rw [same]
      omega
    · refine (below_unpack_packComponents s _ (by decide)).mono ?_
      simp

/-! ## Counts -/

theorem totalExponent_shiftLeft_le (m : Nat) (e : Int) (k : Nat) :
    totalExponent (m <<< k) (e - k) ≤ totalExponent m e := by
  have power : m <<< k < 2 ^ (m.log2 + 1 + k) := by
    rw [Nat.shiftLeft_eq, pow_add]
    exact Nat.mul_lt_mul_of_pos_right Nat.lt_log2_self (Nat.two_pow_pos k)
  have bits := log2_lt_of_lt (by omega) power
  rw [totalExponent, totalExponent]
  omega

theorem below_round (s : Sign) (m : Nat) (e : Int) :
    Below (max (totalExponent m e) (-1073) + 1) (UnpackedFloat.round .binary64 s m e) := by
  simp only [UnpackedFloat.round, decreaseExponent]
  refine (below_roundWithAccuracy s _ _ .exact).mono ?_
  have size := totalExponent_shiftLeft_le m e
    (e - Format.binary64.targetExponent (totalExponent m e)).toNat
  omega

theorem totalExponent_le_of_lt {n k : Nat} (hk : 0 < k) (h : n < 2 ^ k) :
    totalExponent n 0 ≤ k := by
  have bits := log2_lt_of_lt hk h
  rw [totalExponent]
  omega

/-- A count without a decimal exponent is below a power of two. -/
theorem below_ofUInt64 (n : UInt64) : Below 65 (UnpackedFloat.ofUInt64 .binary64 n) := by
  have size := totalExponent_le_of_lt (by decide) n.toNat_lt
  rw [UnpackedFloat.ofUInt64, UnpackedFloat.ofNat, UnpackedFloat.ofInt, UnpackedFloat.normalize]
  split
  · next negative =>
    rw [Int.compare_eq_lt] at negative
    omega
  · exact .zero _
  · refine (below_round .positive n.toNat 0).mono ?_
    omega

theorem isFinite_pack {t : Int} (small : t ≤ 972) {u : UnpackedFloat} (h : Below t u) :
    (Float.Model.pack u).isFinite = true :=
  (below_unpack_pack small h).isFinite

/-- A count that binary64 has an exact value for is multiplied by one. -/
theorem isFinite_toFloat_mul_one (n : UInt64) :
    (n.toFloat * Float.ofBits 4607182418800017408).isFinite = true := by
  have value : (Float.ofBits 4607182418800017408).toModel.unpack =
      .finite .positive (2 ^ 52) (-52) (by decide) := rfl
  have one : Below 1 (Float.ofBits 4607182418800017408).toModel.unpack := by
    rw [value]
    exact .finite (by decide)
  have count := below_unpack_pack (by decide) (below_ofUInt64 n)
  exact isFinite_pack (by decide) (below_mul count one)

/-- Room for more bits does not change the size. -/
theorem below_shiftLeft {n : Nat} (h : n < 2 ^ 64) (width : Nat) (positive : 0 < n <<< width) :
    Below 64 (.finite .positive (n <<< width) (-width) positive) := by
  have size := totalExponent_le_of_lt (by decide) h
  have wide := totalExponent_shiftLeft_le n 0 width
  rw [Int.zero_sub] at wide
  exact .finite (wide.trans size)

/-- A larger count is rounded with room for its last bits. -/
theorem below_ofScientific {n : Nat} (h : n < 2 ^ 64) :
    Below 66 (UnpackedFloat.ofScientific .binary64 n 0) := by
  have range : (0 : Int) < 2 ^ Format.binary64.exponentBits := by decide
  have one : Below 1 (.finite .positive (10 ^ (0 : Int).toNat) 0 (by decide)) :=
    .finite (by decide)
  unfold UnpackedFloat.ofScientific
  split
  · exact .zero _
  · rw [if_neg (by decide), if_neg (by omega), if_pos (by decide)]
    exact (below_mul (below_shiftLeft h _ _) one).mono (by decide)

theorem isFinite_ofScientific {n : Nat} (h : n < 2 ^ 64) :
    (Float.ofScientific n false 0).isFinite = true := by
  unfold Float.ofScientific
  split
  · exact isFinite_toFloat_mul_one _
  · exact isFinite_pack (by decide) (below_ofScientific h)

theorem isFinite_toBinary64 {n : Nat} (h : n < 2 ^ 64) :
    (Numeral.decimal false n 0).toBinary64.isFinite = true := by
  have bits := log2_lt_of_lt (by decide) h
  have zero : (0 : Float).isFinite = true := by decide +kernel
  have moderate : ¬ (0 : Int) + (n.log2 : Int) * 3 / 10 > 310 := by omega
  rw [Numeral.toBinary64, Numeral.roundDecimal]
  simp only [Bool.false_eq_true, if_false, if_neg moderate]
  split
  · exact zero
  · exact isFinite_ofScientific h

end Binary64

end FuzzyInference
