import FuzzyInference.Proofs.Sampling
import Mathlib.Algebra.Order.Floor.Ring
import Mathlib.Data.Rat.Floor
import Mathlib.Tactic.FieldSimp
import Mathlib.Tactic.Ring

/-!
# Where the samples of a range lie

Steps share out the width of the range, or a width of one if the range is narrower than that. As
many steps are taken as fit, and one that ends just behind the range ends at its high end instead.

* `Samples.Taken`: samples taken one after the other. `Samples.toList_of_taken`: what is left then;
* `StepsFit`: so many steps of a width fit into a range, and `gridPoint`: where they end;
* `StepsFit.gridPoint_lt_gridPoint`: no two of them end at one place;
* `Samples.countOf_finite`: the number of samples, and `Samples.toList_ofSteps`: where they are;
* `Samples.exists_grid`: the samples are the places of the steps that fit;
* `samples_of_range`: how many they are, where they lie and how many are left at any time.
-/

namespace FuzzyInference

open Exact (finite)

/-! ## Samples one by one -/

namespace Samples

section

variable {α : Type} [Scalar α]

/-- Taking these samples off the front, one after the other, leaves the others. -/
inductive Taken : Samples α → List α → Samples α → Prop
  | nil {s : Samples α} : Taken s [] s
  | cons {s t u : Samples α} {x : α} {xs : List α} (next : s.next? = some (x, t))
      (rest : Taken t xs u) : Taken s (x :: xs) u

variable {s t u : Samples α} {x : α} {xs : List α}

theorem next?_eq_some_iff : s.next? = some (x, t) ↔
    s.index < s.count ∧ s.sample s.index = x ∧ { s with index := s.index + 1 } = t := by
  unfold next?
  split
  · next within => simp [within]
  · next past => simp [past]

theorem next?_eq_none_iff : s.next? = none ↔ s.remaining = 0 := by
  unfold next? remaining
  split
  · next within => exact iff_of_false nofun (Nat.sub_ne_zero_of_lt within)
  · next past => exact iff_of_true rfl (Nat.sub_eq_zero_of_le (Nat.le_of_not_lt past))

/-- The next sample is the first of those to come, and counts for one. -/
theorem toList_of_next? (next : s.next? = some (x, t)) :
    s.toList = x :: t.toList ∧ s.remaining = t.remaining + 1 := by
  obtain ⟨within, rfl, rfl⟩ := next?_eq_some_iff.1 next
  have fewer : s.remaining = { s with index := s.index + 1 }.remaining + 1 := by
    simp only [remaining]
    omega
  refine ⟨?_, fewer⟩
  rw [toList, fewer, List.range'_succ]
  rfl

/-- After some samples have been taken, the others are still to come. -/
theorem toList_of_taken (h : s.Taken xs t) :
    s.toList = xs ++ t.toList ∧ s.remaining = xs.length + t.remaining := by
  induction h with
  | nil => simp
  | cons next _ ih =>
    obtain ⟨first, fewer⟩ := toList_of_next? next
    rw [first, fewer, ih.1, ih.2, List.length_cons]
    exact ⟨rfl, by omega⟩

/-- Not more samples are taken than there are. -/
theorem Taken.index_le (h : s.Taken xs t) (inside : s.index ≤ s.count) : t.index ≤ t.count := by
  induction h with
  | nil => exact inside
  | cons next _ ih =>
    obtain ⟨within, -, rfl⟩ := next?_eq_some_iff.1 next
    exact ih within

/-- All samples can be taken, and then there are no more. -/
theorem taken_toList (s : Samples α) : ∃ t, s.Taken s.toList t ∧ t.next? = none := by
  generalize left : s.remaining = count
  induction count generalizing s with
  | zero =>
    refine ⟨s, ?_, next?_eq_none_iff.2 left⟩
    rw [toList, left]
    exact .nil
  | succ count ih =>
    cases next : s.next? with
    | none =>
      rw [next?_eq_none_iff.1 next] at left
      cases left
    | some pair =>
      obtain ⟨x, t⟩ := pair
      obtain ⟨first, fewer⟩ := toList_of_next? next
      obtain ⟨u, taken, ended⟩ := ih t (by omega)
      rw [first]
      exact ⟨u, .cons next taken, ended⟩

end

end Samples

/-! ## Steps in a range -/

/-- Where a step ends: no further than the high end of the range. -/
def gridPoint (p r width : Rat) (k : Nat) : Rat := min (p + width * k) r

/-- As many steps of this width as fit between the two numbers, where a step that ends just behind
the second one still counts. -/
structure StepsFit (p r width : Rat) (steps : Nat) : Prop where
  forward : 0 < width
  reaches : width * steps ≤ r - p + width / 1000000000
  stops : r - p + width / 1000000000 < width * (steps + 1)

namespace StepsFit

variable {p r width : Rat} {steps k : Nat} (h : StepsFit p r width steps)

include h

/-- No step but the last one is cut off. -/
theorem before_high (earlier : k < steps) : p + width * k < r := by
  have next : (k : Rat) + 1 ≤ steps := by exact_mod_cast earlier
  nlinarith [h.reaches, h.forward]

theorem gridPoint_eq (earlier : k < steps) : gridPoint p r width k = p + width * k :=
  min_eq_left (h.before_high earlier).le

theorem gridPoint_lt_gridPoint {j : Nat} (earlier : j < k) (le : k ≤ steps) :
    gridPoint p r width j < gridPoint p r width k := by
  have before : j < steps := by omega
  have ahead : (j : Rat) < k := by exact_mod_cast earlier
  rw [h.gridPoint_eq before, gridPoint, lt_min_iff]
  constructor
  · nlinarith [h.forward]
  · exact h.before_high before

omit h in
theorem gridPoint_zero (ordered : p ≤ r) : gridPoint p r width 0 = p := by
  rw [gridPoint, Nat.cast_zero, mul_zero, add_zero, min_eq_left ordered]

theorem gridPoint_mem (ordered : p ≤ r) :
    p ≤ gridPoint p r width k ∧ gridPoint p r width k ≤ r := by
  have ahead : 0 ≤ width * k := mul_nonneg h.forward.le (Nat.cast_nonneg k)
  refine ⟨le_min ?_ ordered, min_le_right _ _⟩
  linarith

/-- The last step leaves less than another one. -/
theorem last_lt : r - gridPoint p r width steps < width := by
  rcases min_choice (p + width * steps) r with same | same
  · rw [gridPoint, same]
    nlinarith [h.stops, h.forward]
  · rw [gridPoint, same, sub_self]
    exact h.forward

/-- As many steps as share out at least the width of the range do not all fit, or just so. -/
theorem steps_le {count : Nat} (share : r - p ≤ width * count) : steps ≤ count := by
  have scaled : width * steps < width * (count + 1) := by
    nlinarith [h.reaches, h.forward]
  have less : (steps : Rat) < count + 1 := lt_of_mul_lt_mul_left scaled h.forward.le
  exact Nat.lt_succ_iff.1 (by exact_mod_cast less)

theorem le_steps {count : Nat} (share : width * count ≤ r - p) : count ≤ steps := by
  have scaled : width * count < width * (steps + 1) := by
    nlinarith [h.stops, h.forward]
  have less : (count : Rat) < steps + 1 := lt_of_mul_lt_mul_left scaled h.forward.le
  exact Nat.lt_succ_iff.1 (by exact_mod_cast less)

/-! ### The places in order -/

theorem pairwise_lt : ((List.range (steps + 1)).map (gridPoint p r width)).Pairwise (· < ·) := by
  rw [List.pairwise_map]
  refine List.pairwise_lt_range.imp_of_mem fun _ within before => ?_
  exact h.gridPoint_lt_gridPoint before (Nat.lt_succ_iff.1 (List.mem_range.1 within))

omit h in
/-- No step is cut off where the last one is not. -/
theorem gridPoint_eq_of_le {count : Nat} (inside : p + width * (count : Rat) ≤ r)
    (forward : 0 ≤ width) (le : k ≤ count) : gridPoint p r width k = p + width * k := by
  have ahead : width * k ≤ width * count :=
    mul_le_mul_of_nonneg_left (by exact_mod_cast le) forward
  exact min_eq_left (by linarith)

omit h in
/-- Where no step is cut off, they all have the same width. -/
theorem isChain_of_le {count : Nat} (inside : p + width * (count : Rat) ≤ r) (forward : 0 ≤ width) :
    ((List.range (count + 1)).map (gridPoint p r width)).IsChain fun x y => y - x = width := by
  rw [List.isChain_map, List.isChain_range_succ]
  intro k less
  rw [gridPoint_eq_of_le inside forward less.le, gridPoint_eq_of_le inside forward less]
  push_cast
  ring

theorem isChain_dropLast :
    ((List.range (steps + 1)).map (gridPoint p r width)).dropLast.IsChain
      fun x y => y - x = width := by
  rw [← List.map_dropLast, List.range_succ, List.dropLast_concat]
  cases steps with
  | zero => exact .nil
  | succ steps => exact isChain_of_le (h.before_high (Nat.lt_succ_self steps)).le h.forward.le

end StepsFit

namespace Samples

/-- How many steps fit is read off the width of the range in steps. -/
theorem countOf_finite {p r width : Rat} (ordered : p ≤ r) (forward : 0 < width) :
    countOf ⟨finite p, finite r⟩ (finite width) =
      match Exact.floor? (finite ((r - p) / width + 1 / 1000000000)) with
      | some n => n + 1
      | none => 0 := by
  have quotient : (finite r - finite p) / finite width + Scalar.tolerance =
      finite ((r - p) / width + 1 / 1000000000) := by
    rw [Exact.finite_sub_finite, Exact.finite_div_finite _ forward.ne']
    rfl
  have sampled : (Scalar.isFinite (finite p) && Scalar.isFinite (finite r) &&
      decide (finite p ≤ finite r) && decide (0 < finite width)) = true := by
    rw [Bool.and_eq_true, Bool.and_eq_true, decide_eq_true_eq, decide_eq_true_eq]
    exact ⟨⟨rfl, Exact.finite_le_finite.2 ordered⟩, decide_eq_true forward⟩
  unfold countOf
  rw [if_pos sampled, quotient]
  rfl

/-- There is one sample more than steps fit into the range. -/
theorem exists_steps {p r width : Rat} (ordered : p ≤ r) (forward : 0 < width)
    (few : (r - p) / width + 1 / 1000000000 < UInt64.size) :
    ∃ steps, countOf ⟨finite p, finite r⟩ (finite width) = steps + 1 ∧
      StepsFit p r width steps := by
  rw [countOf_finite ordered forward]
  generalize fits : (r - p) / width + 1 / 1000000000 = q at few ⊢
  have share : 0 ≤ (r - p) / width := div_nonneg (sub_nonneg.2 ordered) forward.le
  have positive : 0 ≤ q := by linarith
  have whole : ((⌊q⌋.toNat : Nat) : Rat) = ⌊q⌋ := by
    exact_mod_cast Int.toNat_of_nonneg (Int.floor_nonneg.2 positive)
  have scaled : width * q = r - p + width / 1000000000 := by
    rw [← fits]
    field_simp
  refine ⟨⌊q⌋.toNat, ?_, forward, ?_, ?_⟩
  · have counted : Exact.floor? (finite q) = some ⌊q⌋.toNat := if_pos ⟨positive, few⟩
    rw [counted]
  · rw [whole, ← scaled]
    exact mul_le_mul_of_nonneg_left (Int.floor_le q) forward.le
  · rw [whole, ← scaled]
    exact mul_lt_mul_of_pos_left (Int.lt_floor_add_one q) forward

/-- The samples are places where steps end. -/
theorem toList_ofSteps (p r : Rat) (n : Nat) :
    (ofSteps ⟨finite p, finite r⟩ n).toList =
      ((List.range (countOf ⟨finite p, finite r⟩
        (finite (max 1 (r - p) / (max n 1 : Nat))))).map
          (gridPoint p r (max 1 (r - p) / (max n 1 : Nat)))).map finite := by
  rw [ofSteps_finite, ofStep, toList, remaining, Nat.sub_zero, List.map_map, List.range_eq_range']
  exact List.map_congr_left fun k _ => sample_finite _ _ _ _ _ k

theorem exists_finite (p r : Rat) (n : Nat) :
    ∃ xs : List Rat, (ofSteps ⟨finite p, finite r⟩ n).toList = xs.map finite :=
  ⟨_, toList_ofSteps p r n⟩

/-- The samples are the places where the steps end that fit into the range. -/
theorem exists_grid {p r : Rat} (ordered : p ≤ r) {n : Nat} (few : max n 1 < UInt64.size) :
    ∃ steps, StepsFit p r (max 1 (r - p) / (max n 1 : Nat)) steps ∧
      (ofSteps ⟨finite p, finite r⟩ n).toList =
        ((List.range (steps + 1)).map (gridPoint p r (max 1 (r - p) / (max n 1 : Nat)))).map
          finite := by
  generalize number : max n 1 = count at few
  have counts : (0 : Rat) < count := by
    rw [← number]
    exact Nat.cast_pos.2 (Nat.le_max_right n 1)
  have whole : 0 < max 1 (r - p) := lt_max_of_lt_left one_pos
  have share : (r - p) / (max 1 (r - p) / count) ≤ count := by
    rw [div_div_eq_mul_div, div_le_iff₀ whole, mul_comm]
    exact mul_le_mul_of_nonneg_left (le_max_right _ _) counts.le
  have small : (r - p) / (max 1 (r - p) / count) + 1 / 1000000000 < (UInt64.size : Rat) := by
    calc
      _ ≤ (count : Rat) + 1 / 1000000000 := add_le_add_left share _
      _ < (count : Rat) + 1 := by norm_num
      _ ≤ (UInt64.size : Rat) := by exact_mod_cast few
  obtain ⟨steps, counted, fits⟩ := exists_steps ordered (div_pos whole counts) small
  refine ⟨steps, fits, ?_⟩
  rw [toList_ofSteps, number, counted]

end Samples

/-- The samples of a range between two finite numbers, in any number of steps that can be counted
together with the last sample. They begin at the low end, grow strictly, stay in the range and are
at most one more than the steps. In a range of width one or more they are exactly that many, evenly
spaced, and end at the high end. In a narrower one each step but the last has its share of a width
of one, and the last sample is less than that away from the high end. They can be taken one after
the other, and whichever have been taken, what is reported to remain is how many are still to come.
-/
theorem samples_of_range {p r : Rat} (wide : p < r) {n : Nat} (few : max n 1 + 1 < UInt64.size) :
    ∃ xs : List Rat,
      (Samples.ofSteps ⟨finite p, finite r⟩ n).toList = xs.map finite ∧
      xs.head? = some p ∧ xs.Pairwise (· < ·) ∧ (∀ x ∈ xs, p ≤ x ∧ x ≤ r) ∧
      xs.length ≤ max n 1 + 1 ∧
      (1 ≤ r - p → xs.length = max n 1 + 1 ∧
        (xs.IsChain fun x y : Rat => y - x = (r - p) / (max n 1 : Nat)) ∧ xs.getLast? = some r) ∧
      (r - p < 1 → (xs.dropLast.IsChain fun x y : Rat => y - x = 1 / (max n 1 : Nat)) ∧
        ∃ x, xs.getLast? = some x ∧ r - x < 1 / (max n 1 : Nat)) ∧
      ∀ taken rest, (Samples.ofSteps ⟨finite p, finite r⟩ n).Taken taken rest →
        rest.index ≤ rest.count ∧ ∃ others done, rest.Taken others done ∧ done.next? = none ∧
          xs.map finite = taken ++ others ∧ rest.remaining = others.length := by
  obtain ⟨steps, fits, samples⟩ := Samples.exists_grid wide.le (Nat.lt_of_succ_lt few)
  have counts : (0 : Rat) < (max n 1 : Nat) := Nat.cast_pos.2 (Nat.le_max_right n 1)
  have shared : max 1 (r - p) / (max n 1 : Nat) * (max n 1 : Nat) = max 1 (r - p) :=
    div_mul_cancel₀ _ counts.ne'
  have most : steps ≤ max n 1 := fits.steps_le (by rw [shared]; exact le_max_right _ _)
  refine ⟨_, samples, ?_, fits.pairwise_lt, ?_, ?_, ?_, ?_, ?_⟩
  · rw [List.head?_map, List.head?_range, if_neg (Nat.succ_ne_zero steps), Option.map_some,
      StepsFit.gridPoint_zero wide.le]
  · simp only [List.forall_mem_map]
    exact fun k _ => fits.gridPoint_mem wide.le
  · rw [List.length_map, List.length_range]
    omega
  · intro one
    rw [max_eq_right one] at fits shared ⊢
    have all : steps = max n 1 := le_antisymm most (fits.le_steps shared.le)
    have reaches : p + (r - p) / (max n 1 : Nat) * (max n 1 : Nat) = r := by
      rw [shared, add_sub_cancel]
    subst all
    refine ⟨by rw [List.length_map, List.length_range], ?_, ?_⟩
    · exact StepsFit.isChain_of_le reaches.le fits.forward.le
    · rw [List.getLast?_map, List.getLast?_range, if_neg (Nat.succ_ne_zero _), Option.map_some,
        Nat.add_sub_cancel, gridPoint, reaches, min_self]
  · intro narrow
    rw [max_eq_left narrow.le] at fits ⊢
    refine ⟨fits.isChain_dropLast, gridPoint p r (1 / (max n 1 : Nat)) steps, ?_, fits.last_lt⟩
    rw [List.getLast?_map, List.getLast?_range, if_neg (Nat.succ_ne_zero _), Option.map_some,
      Nat.add_sub_cancel]
  · intro taken rest h
    obtain ⟨ended, others, last⟩ := Samples.taken_toList rest
    refine ⟨h.index_le (Nat.zero_le _), rest.toList, ended, others, last, ?_, ?_⟩
    · rw [← samples]
      exact (Samples.toList_of_taken h).1
    · rw [Samples.toList, List.length_map, List.length_range']

/-- A step of width one ends just behind this range. It still counts, and is cut off. -/
example : (Samples.ofSteps ⟨finite 0, finite (9999999999 / 10000000000)⟩ 0).toList =
    [finite 0, finite (9999999999 / 10000000000)] := by
  decide +kernel

theorem samples_of_range_short :
    (0 : Rat) < 9999999999 / 10000000000 ∧ max 0 1 + 1 < UInt64.size ∧
      (9999999999 / 10000000000 - 0 : Rat) < 1 ∧ ∃ xs : List Rat,
        (Samples.ofSteps ⟨finite 0, finite (9999999999 / 10000000000)⟩ 0).toList = xs.map finite ∧
        xs.head? = some 0 ∧ xs.Pairwise (· < ·) ∧ xs.length ≤ 2 ∧
        (xs.dropLast.IsChain fun x y : Rat => y - x = 1 / (max 0 1 : Nat)) ∧
        ∃ x, xs.getLast? = some x ∧ 9999999999 / 10000000000 - x < 1 / (max 0 1 : Nat) := by
  have wide : (0 : Rat) < 9999999999 / 10000000000 := by norm_num
  have few : max 0 1 + 1 < UInt64.size := by decide
  have narrow : (9999999999 / 10000000000 - 0 : Rat) < 1 := by norm_num
  obtain ⟨xs, samples, first, growing, -, most, -, spaced, -⟩ := samples_of_range wide few
  obtain ⟨steps, last⟩ := spaced narrow
  exact ⟨wide, few, narrow, xs, samples, first, growing, most, steps, last⟩

end FuzzyInference
