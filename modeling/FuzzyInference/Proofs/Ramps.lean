import FuzzyInference.Proofs.Duality
import FuzzyInference.Proofs.Recognition
import FuzzyInference.Proofs.Slopes

/-!
# What `LINEAR` means

The two numbers of `LINEAR` may come in either order, and the set that is read of them has one
formula for both: the share of the way from the first number to the second one, kept between zero
and one.

* `Exact.clamp`: a number brought between zero and one, and `Exact.clamp_one_sub`: its complement;
* `Exact.share_swap`: the share of the way back;
* `FuzzySet.degree_linear`: the way up, and `FuzzySet.degree_ramp`: either way;
* `Grammar.DerivesLinear`, `Grammar.DerivesInvertedLinear`: the words it stands in;
* `degrees_of_linear`: all of it together.
-/

namespace FuzzyInference

open Scalar (least greatest)

open Exact (finite undefined finite_le_finite finite_lt_finite)

/-! ## Shares of the way -/

namespace Exact

/-- The number brought between zero and one. -/
def clamp (y : Exact) : Exact := greatest 0 (least y 1)

variable {q : Rat}

theorem clamp_finite (q : Rat) : clamp (finite q) = finite (max 0 (min q 1)) := by
  have lower : least (finite q) 1 = finite (min q 1) := least_finite q 1
  have upper : greatest 0 (finite (min q 1)) = finite (max 0 (min q 1)) := greatest_finite 0 _
  rw [clamp, lower, upper]

theorem clamp_of_le (h : q ≤ 0) : clamp (finite q) = 0 := by
  rw [clamp_finite, max_eq_left ((min_le_left q 1).trans h)]
  rfl

theorem clamp_of_ge (h : 1 ≤ q) : clamp (finite q) = 1 := by
  rw [clamp_finite, min_eq_right h, max_eq_right zero_le_one]
  rfl

theorem clamp_of_mem (low : 0 ≤ q) (high : q ≤ 1) : clamp (finite q) = finite q := by
  rw [clamp_finite, min_eq_left high, max_eq_right low]

theorem clamp_posInf : clamp posInf = 1 := by decide +kernel

theorem clamp_negInf : clamp negInf = 0 := by decide +kernel

theorem clamp_one_sub {y : Exact} (h : y ≠ undefined) : clamp (1 - y) = 1 - clamp y := by
  cases y with
  | undefined => contradiction
  | negInf =>
    rw [one_sub_negInf, clamp_posInf, clamp_negInf]
    decide +kernel
  | posInf =>
    rw [one_sub_posInf, clamp_posInf, clamp_negInf]
    decide +kernel
  | finite q =>
    rw [one_sub_finite]
    rcases le_or_gt q 0 with low | low
    · rw [clamp_of_le low, clamp_of_ge (by linarith)]
      decide +kernel
    · rcases le_or_gt q 1 with high | high
      · rw [clamp_of_mem low.le high, clamp_of_mem (by linarith) (by linarith), one_sub_finite]
      · rw [clamp_of_ge high.le, clamp_of_le (by linarith)]
        decide +kernel

theorem finite_ne_undefined : finite q ≠ undefined := nofun

theorem signedInf_of_pos (h : 0 < q) : signedInf q = posInf := if_pos h

theorem signedInf_of_neg (h : q < 0) : signedInf q = negInf := by
  rw [signedInf, if_neg h.not_gt, if_pos h]

theorem signedInf_ne_undefined (h : q ≠ 0) : signedInf q ≠ undefined := by
  rcases lt_or_gt_of_ne h with low | high
  · rw [signedInf_of_neg low]
    nofun
  · rw [signedInf_of_pos high]
    nofun

theorem one_sub_signedInf (q : Rat) : 1 - signedInf q = signedInf (-q) := by
  rcases lt_trichotomy q 0 with low | rfl | high
  · rw [signedInf_of_neg low, signedInf_of_pos (neg_pos.2 low), one_sub_negInf]
  · decide +kernel
  · rw [signedInf_of_pos high, signedInf_of_neg (neg_neg_iff_pos.2 high), one_sub_posInf]

variable {a b : Rat}

theorem share_finite (apart : a ≠ b) (q : Rat) :
    (finite q - finite a) / (finite b - finite a) = finite ((q - a) / (b - a)) := by
  rw [finite_sub_finite, finite_sub_finite, finite_div_finite _ (sub_ne_zero.2 apart.symm)]

theorem share_posInf (a b : Rat) :
    (posInf - finite a) / (finite b - finite a) = signedInf (b - a) := by
  rw [finite_sub_finite]
  rfl

theorem share_negInf (a b : Rat) :
    (negInf - finite a) / (finite b - finite a) = signedInf (-(b - a)) := by
  rw [finite_sub_finite]
  rfl

/-- The shares of the way from either end add up to one. -/
theorem share_swap (apart : a ≠ b) (x : Exact) :
    (x - finite a) / (finite b - finite a) = 1 - (x - finite b) / (finite a - finite b) := by
  cases x with
  | undefined => rfl
  | negInf => rw [share_negInf, share_negInf, one_sub_signedInf, neg_neg, neg_sub]
  | posInf => rw [share_posInf, share_posInf, one_sub_signedInf, neg_sub]
  | finite q =>
    have forth := sub_ne_zero.2 apart.symm
    have back := sub_ne_zero.2 apart
    rw [share_finite apart, share_finite apart.symm, one_sub_finite]
    congr 1
    field_simp
    ring

theorem share_defined (apart : a ≠ b) {x : Exact} (h : x ≠ undefined) :
    (x - finite a) / (finite b - finite a) ≠ undefined := by
  have wide := sub_ne_zero.2 apart.symm
  cases x with
  | undefined => contradiction
  | negInf =>
    rw [share_negInf]
    exact signedInf_ne_undefined (neg_ne_zero.2 wide)
  | posInf =>
    rw [share_posInf]
    exact signedInf_ne_undefined wide
  | finite q =>
    rw [share_finite apart]
    exact finite_ne_undefined

end Exact

/-! ## Ramps -/

namespace FuzzySet

variable {a b : Rat}

theorem ramp_of_lt (h : a < b) : ramp (finite a) (finite b) = .linear (finite a) (finite b) :=
  if_pos (finite_lt_finite.2 h)

theorem ramp_of_gt (h : b < a) :
    ramp (finite a) (finite b) = .inverted (.linear (finite b) (finite a)) := by
  rw [ramp, if_neg (mt finite_lt_finite.1 h.not_gt), if_pos (finite_lt_finite.2 h)]

theorem ramp_self (a : Rat) : ramp (finite a) (finite a) = .linear (finite a) (finite a) := by
  have same : ¬ (finite a : Exact) < finite a := mt finite_lt_finite.1 (lt_irrefl a)
  rw [ramp, if_neg same, if_neg same, step]

/-- In a set that rises, the degree is the share of the way from the foot to the top, kept between
zero and one. -/
theorem degree_linear (wide : a < b) {x : Exact} (h : x ≠ undefined) :
    (linear (finite a) (finite b)).degree x =
      Exact.clamp ((x - finite a) / (finite b - finite a)) := by
  have ascent := ascent_linear wide.le
  have width := sub_pos.2 wide
  cases x with
  | undefined => contradiction
  | negInf =>
    rw [ascent.eq_zero wide.le rfl, Exact.share_negInf,
      Exact.signedInf_of_neg (neg_neg_iff_pos.2 width), Exact.clamp_negInf]
  | posInf =>
    rw [linear_eq_one wide.le rfl, Exact.share_posInf, Exact.signedInf_of_pos width,
      Exact.clamp_posInf]
  | finite q =>
    rw [Exact.share_finite wide.ne]
    rcases le_or_gt q a with low | low
    · have other : finite q ≠ finite b := fun same =>
        (low.trans_lt wide).ne (Exact.finite.inj same)
      rw [ascent.below _ (finite_le_finite.2 low) other, Exact.clamp_of_le]
      exact div_nonpos_of_nonpos_of_nonneg (sub_nonpos.2 low) width.le
    · rcases lt_or_ge q b with high | high
      · rw [ascent.between q low high, Exact.clamp_of_mem]
        · exact div_nonneg (sub_nonneg.2 low.le) width.le
        · exact (div_le_one width).2 (sub_le_sub_right high.le a)
      · rw [linear_eq_one wide.le (finite_le_finite.2 high), Exact.clamp_of_ge]
        exact (one_le_div width).2 (sub_le_sub_right high a)

/-- In a ramp the degree is the share of the way from the first number to the second, be it up or
down. -/
theorem degree_ramp (apart : a ≠ b) {x : Exact} (h : x ≠ undefined) :
    (ramp (finite a) (finite b)).degree x =
      Exact.clamp ((x - finite a) / (finite b - finite a)) := by
  rcases lt_or_gt_of_ne apart with up | down
  · rw [ramp_of_lt up, degree_linear up h]
  · rw [ramp_of_gt down, degree, degree_linear down h, Exact.share_swap apart,
      Exact.clamp_one_sub (Exact.share_defined apart.symm h)]

theorem degree_ramp_foot (apart : a ≠ b) : (ramp (finite a) (finite b)).degree (finite a) = 0 := by
  rw [degree_ramp apart Exact.finite_ne_undefined, Exact.share_finite apart, sub_self, zero_div,
    Exact.clamp_of_le le_rfl]

theorem degree_ramp_top (apart : a ≠ b) : (ramp (finite a) (finite b)).degree (finite b) = 1 := by
  rw [degree_ramp apart Exact.finite_ne_undefined, Exact.share_finite apart,
    div_self (sub_ne_zero.2 apart.symm),
    Exact.clamp_of_ge le_rfl]

theorem degree_inverted_inverted (m : FuzzySet Exact) (x : Exact) :
    (inverted (.inverted m)).degree x = m.degree x := by
  rw [degree, degree, Exact.one_sub_one_sub]

/-- A ramp is the complement of the ramp the other way. -/
theorem degree_inverted_ramp (apart : a ≠ b) (x : Exact) :
    (inverted (ramp (finite b) (finite a))).degree x = (ramp (finite a) (finite b)).degree x := by
  rcases lt_or_gt_of_ne apart with up | down
  · rw [ramp_of_lt up, ramp_of_gt up, degree_inverted_inverted]
  · rw [ramp_of_lt down, ramp_of_gt down]

theorem domain_linear (a b : Rat) :
    (linear (finite a) (finite b)).domain = ⟨finite (Min.min a b), finite (Max.max a b)⟩ := by
  rw [domain, Exact.least_finite, Exact.greatest_finite]

theorem domain_ramp (a b : Rat) :
    (ramp (finite a) (finite b)).domain = ⟨finite (Min.min a b), finite (Max.max a b)⟩ := by
  rcases lt_trichotomy a b with up | rfl | down
  · rw [ramp_of_lt up, domain_linear]
  · rw [ramp_self, domain_linear]
  · rw [ramp_of_gt down, domain, domain_linear, min_comm, max_comm]

end FuzzySet

/-! ## Reading -/

namespace Grammar

/-- The words of `LINEAR` and its two numbers. -/
inductive DerivesLinear (a b : Exact) : List String → Prop
  | mk {name ws} (hn : TokenKind.ofText name = .linear) (arguments : DerivesArguments ws [a, b]) :
      DerivesLinear a b (name :: ws)

/-- The words of `INVERTED` with `LINEAR` and its two numbers in parentheses. -/
inductive DerivesInvertedLinear (a b : Exact) : List String → Prop
  | mk {name first ws last} (hn : TokenKind.ofText name = .inverted)
      (hf : TokenKind.ofText first = .openParen) (inner : DerivesLinear a b ws)
      (hl : TokenKind.ofText last = .closeParen) :
      DerivesInvertedLinear a b (name :: first :: (ws ++ [last]))

variable {a b : Exact} {ws : List String}

theorem DerivesLinear.fuzzySet (h : DerivesLinear a b ws) : DerivesFuzzySet ws (.ramp a b) := by
  cases h with
  | mk hn arguments => exact .call (f := .linear) hn arguments (.linear a b)

theorem DerivesInvertedLinear.fuzzySet (h : DerivesInvertedLinear a b ws) :
    DerivesFuzzySet ws (.inverted (.ramp a b)) := by
  cases h with
  | mk hn hf inner hl => exact .inverted hn hf inner.fuzzySet hl

end Grammar

open Grammar (DerivesLinear DerivesInvertedLinear)

/-- Where `LINEAR` and two finite numbers stand, a set is read. If the numbers differ, the degree of
any number in it is the share of the way from the first to the second, kept between zero and one, be
the way up or down: zero at the first and one at the second. What is read of the way back in
`INVERTED` has the same degrees. If the numbers are equal, the set is a step. Its domain goes from
the lesser of the two to the greater. -/
theorem degrees_of_linear (a b : Rat) :
    (∀ (c : Cursor) (used rest : List Token), c.rest = used ++ rest →
      DerivesLinear (finite a) (finite b) (words used) →
        (readFuzzySet .standard c).Yields (.ramp (finite a) (finite b)) rest) ∧
    (∀ (c : Cursor) (used rest : List Token), c.rest = used ++ rest →
      DerivesInvertedLinear (finite b) (finite a) (words used) →
        (readFuzzySet .standard c).Yields (.inverted (.ramp (finite b) (finite a))) rest) ∧
    (a ≠ b →
      (∀ x, x ≠ undefined → (FuzzySet.ramp (finite a) (finite b)).degree x =
        Exact.clamp ((x - finite a) / (finite b - finite a))) ∧
      (FuzzySet.ramp (finite a) (finite b)).degree (finite a) = 0 ∧
      (FuzzySet.ramp (finite a) (finite b)).degree (finite b) = 1 ∧
      ∀ x, (FuzzySet.inverted (.ramp (finite b) (finite a))).degree x =
        (FuzzySet.ramp (finite a) (finite b)).degree x) ∧
    (a = b →
      (∀ x, x < finite a → (FuzzySet.ramp (finite a) (finite b)).degree x = 0) ∧
      ∀ x, finite a ≤ x → (FuzzySet.ramp (finite a) (finite b)).degree x = 1) ∧
    (FuzzySet.ramp (finite a) (finite b)).domain = ⟨finite (min a b), finite (max a b)⟩ ∧
    (FuzzySet.inverted (.ramp (finite b) (finite a))).domain =
      ⟨finite (min a b), finite (max a b)⟩ := by
  refine ⟨?_, ?_, ?_, ?_, FuzzySet.domain_ramp a b, ?_⟩
  · intro c used rest written linear
    exact yields_readFuzzySet_iff.2 ⟨used, written, linear.fuzzySet⟩
  · intro c used rest written inverted
    exact yields_readFuzzySet_iff.2 ⟨used, written, inverted.fuzzySet⟩
  · intro apart
    refine ⟨?_, FuzzySet.degree_ramp_foot apart, FuzzySet.degree_ramp_top apart,
      FuzzySet.degree_inverted_ramp apart⟩
    intro x defined
    exact FuzzySet.degree_ramp apart defined
  · rintro rfl
    have rise := isRise_linear (le_refl a)
    rw [FuzzySet.ramp_self]
    exact ⟨rise.below, rise.top⟩
  · rw [FuzzySet.domain, FuzzySet.domain_ramp, min_comm, max_comm]

section Derivation

open Grammar

theorem derivesArguments_pair {v w : String} {a b : Exact} (hv : DerivesNumber v a)
    (hw : DerivesNumber w b) : DerivesArguments ["(", v, ",", w, ")"] [a, b] :=
  .parens ((DerivesNumbers.first hv).comma (by simp) hw)

theorem derivesNumber_zero : DerivesNumber "0" (finite 0) :=
  derivesNumber_of_read? (by decide +kernel)

theorem derivesNumber_ten : DerivesNumber "10" (finite 10) :=
  derivesNumber_of_read? (by decide +kernel)

theorem derivesLinear_down :
    DerivesLinear (finite 10) (finite 0) (words (tokenize "linear(10, 0)")) := by
  have read : words (tokenize "linear(10, 0)") = ["linear", "(", "10", ",", "0", ")"] := by
    decide +kernel
  rw [read]
  exact .mk (by decide +kernel) (derivesArguments_pair derivesNumber_ten derivesNumber_zero)

theorem derivesInvertedLinear_up :
    DerivesInvertedLinear (finite 0) (finite 10) (words (tokenize "INVERTED(LINEAR(0, 10))")) := by
  have read : words (tokenize "INVERTED(LINEAR(0, 10))") =
      "INVERTED" :: "(" :: (["LINEAR", "(", "0", ",", "10", ")"] ++ [")"]) := by decide +kernel
  have linear : DerivesLinear (finite 0) (finite 10) ["LINEAR", "(", "0", ",", "10", ")"] :=
    .mk (by decide +kernel) (derivesArguments_pair derivesNumber_zero derivesNumber_ten)
  rw [read]
  exact .mk (by decide +kernel) (by decide +kernel) linear (by decide +kernel)

end Derivation

/-- The numbers go down, and up in `INVERTED`, and in a step they are equal. -/
theorem degrees_of_linear_down :
    DerivesLinear (finite 10) (finite 0) (words (tokenize "linear(10, 0)")) ∧
    (readFuzzySet .standard (.ofTokens (tokenize "linear(10, 0)"))).Yields
      (.ramp (finite 10) (finite 0)) [] ∧
    DerivesInvertedLinear (finite 0) (finite 10) (words (tokenize "INVERTED(LINEAR(0, 10))")) ∧
    (readFuzzySet .standard (.ofTokens (tokenize "INVERTED(LINEAR(0, 10))"))).Yields
      (.inverted (.ramp (finite 0) (finite 10))) [] ∧
    (10 : Rat) ≠ 0 ∧
    (FuzzySet.ramp (finite 10) (finite 0)).degree (finite 4) =
      Exact.clamp ((finite 4 - finite 10) / (finite 0 - finite 10)) ∧
    (FuzzySet.inverted (.ramp (finite 0) (finite 10))).degree (finite 4) =
      (FuzzySet.ramp (finite 10) (finite 0)).degree (finite 4) ∧
    (finite 9 : Exact) < finite 10 ∧
    (FuzzySet.ramp (finite 10) (finite 10)).degree (finite 9) = 0 := by
  have apart : (10 : Rat) ≠ 0 := by decide
  have below : (finite 9 : Exact) < finite 10 := by decide +kernel
  obtain ⟨linear, inverted, differ, -⟩ := degrees_of_linear 10 0
  obtain ⟨degrees, -, -, same⟩ := differ apart
  obtain ⟨-, -, -, equal, -⟩ := degrees_of_linear 10 10
  exact ⟨derivesLinear_down, linear _ _ [] (List.append_nil _).symm derivesLinear_down,
    derivesInvertedLinear_up,
    inverted _ _ [] (List.append_nil _).symm derivesInvertedLinear_up,
    apart, degrees _ Exact.finite_ne_undefined, same _, below, (equal rfl).1 _ below⟩

end FuzzyInference
