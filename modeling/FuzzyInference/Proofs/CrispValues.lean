import FuzzyInference.Proofs.Comparison
import FuzzyInference.Proofs.FiniteDegrees
import FuzzyInference.Proofs.Meanings
import FuzzyInference.Proofs.Sampling

/-!
# Crisp values

A crisp value lies in the range that was sampled for it.

* `Balanced`: what is kept while samples are weighted, `balanced_moments`, and so
  `contains_centroid`: the centroid, where no degree is negative;
* `contains_meanOf`: the mean of some samples, and so `contains_meanOfMaximum`: the mean of maximum,
  of any fuzzy set;
* `samplesAt_peak_ne_nil`: the greatest degree is that of some sample;
* `Engine.IsRead.bounded_outputs`, `Engine.contains_defuzzify`: what engines infer, and the crisp
  values they come to;
* `crisp_value_mem_range`: all of it together.
-/

namespace FuzzyInference

open Exact (finite)

/-! ## The centroid -/

/-- Weighted samples of a total weight that is not negative, with their centre between `p` and `r`.
Without any weight there is no centre. -/
def Balanced (p r : Rat) (sums : Exact × Exact) : Prop :=
  ∃ weighted total, sums = (finite weighted, finite total) ∧
    0 ≤ total ∧ p * total ≤ weighted ∧ weighted ≤ r * total

theorem Balanced.add {p r x y : Rat} {sums : Exact × Exact} (h : Balanced p r sums)
    (low : p ≤ x) (high : x ≤ r) (weight : 0 ≤ y) :
    Balanced p r (sums.1 + finite y * finite x, sums.2 + finite y) := by
  obtain ⟨weighted, total, rfl, positive, above, below⟩ := h
  refine ⟨weighted + y * x, total + y, rfl, add_nonneg positive weight, ?_, ?_⟩
  · nlinarith
  · nlinarith

theorem balanced_moments {p r : Rat} {m : FuzzySet Exact} {samples : List Exact}
    (inside : ∀ x ∈ samples, (Range.mk (finite p) (finite r)).Contains x)
    (weights : ∀ x ∈ samples, Scalar.isFinite (m.degree x) = true ∧ 0 ≤ m.degree x) :
    Balanced p r (moments m samples) := by
  unfold moments
  refine List.foldlRecOn samples _ ?_ ?_
  · exact ⟨0, 0, rfl, le_refl 0, by simp, by simp⟩
  · -- One more sample draws the centre towards a number of the range.
    intro sums balanced x hx
    obtain ⟨q, rfl, low, high⟩ := (inside x hx).exists_finite
    obtain ⟨number, weight⟩ := weights _ hx
    obtain ⟨y, hy⟩ := Exact.isFinite_iff.1 number
    rw [hy] at weight
    simp only [hy]
    exact balanced.add low high (Exact.finite_le_finite.1 weight)

theorem isFinite_moments {m : FuzzySet Exact} {samples : List Exact}
    (numbers : ∀ x ∈ samples, Scalar.isFinite x = true)
    (degrees : ∀ x ∈ samples, Scalar.isFinite (m.degree x) = true) :
    Scalar.isFinite (moments m samples).1 = true ∧
      Scalar.isFinite (moments m samples).2 = true := by
  unfold moments
  apply List.foldlRecOn samples _
    (motive := fun sums : Exact × Exact =>
      Scalar.isFinite sums.1 = true ∧ Scalar.isFinite sums.2 = true)
  · exact ⟨rfl, rfl⟩
  intro sums sound x hx
  have degree := degrees x hx
  exact ⟨Exact.isFinite_add sound.1 (Exact.isFinite_mul degree (numbers x hx)),
    Exact.isFinite_add sound.2 degree⟩

/-- The centroid is the midpoint, or else the quotient by a weight that is not zero. -/
theorem centroid_cases (steps : Nat) (m : FuzzySet Exact) (range : Range Exact) :
    centroid steps m range = range.midpoint ∨
      ¬ ((moments m (Samples.ofSteps range steps).toList).2 == 0) = true ∧
        centroid steps m range = (moments m (Samples.ofSteps range steps).toList).1 /
          (moments m (Samples.ofSteps range steps).toList).2 := by
  unfold centroid
  split
  · exact .inl rfl
  · simp only
    split
    · exact .inl rfl
    · next weighty => exact .inr ⟨weighty, rfl⟩

/-- Whatever the signs of the degrees, the centroid is a number. -/
theorem isFinite_centroid {range : Range Exact} (h : range.Proper) {m : FuzzySet Exact}
    (degrees : ∀ x, range.Contains x → Scalar.isFinite (m.degree x) = true) (steps : Nat) :
    Scalar.isFinite (centroid steps m range) = true := by
  have inside (x) (hx : x ∈ (Samples.ofSteps range steps).toList) := Samples.contains_of_mem h hx
  rcases centroid_cases steps m range with middle | ⟨weighty, quotient⟩
  · rw [middle]
    exact h.isFinite_of_contains h.contains_midpoint
  · obtain ⟨weighted, total⟩ := isFinite_moments
      (fun x hx => h.isFinite_of_contains (inside x hx)) (fun x hx => degrees x (inside x hx))
    rw [quotient]
    apply Exact.isFinite_div weighted total
    intro zero
    exact weighty (Exact.beq_iff.2 ⟨Exact.defined_of_isFinite total, zero⟩)

/-- Where no degree is negative, the centroid lies in the range. -/
theorem contains_centroid {range : Range Exact} (h : range.Proper) {m : FuzzySet Exact}
    (weights : ∀ x, range.Contains x → Scalar.isFinite (m.degree x) = true ∧ 0 ≤ m.degree x)
    (steps : Nat) : range.Contains (centroid steps m range) := by
  have inside (x) (hx : x ∈ (Samples.ofSteps range steps).toList) := Samples.contains_of_mem h hx
  rcases centroid_cases steps m range with middle | ⟨weighty, quotient⟩
  · rw [middle]
    exact h.contains_midpoint
  · obtain ⟨p, r, rfl, -⟩ := h.exists_finite
    obtain ⟨weighted, total, sums, positive, above, below⟩ :=
      balanced_moments inside fun x hx => weights x (inside x hx)
    rw [sums] at weighty quotient
    have weighs : total ≠ 0 := by
      rintro rfl
      exact weighty rfl
    have positive : 0 < total := lt_of_le_of_ne positive weighs.symm
    rw [quotient, Exact.finite_div_finite _ weighs, Range.contains_finite_iff]
    exact ⟨(le_div_iff₀ positive).2 above, (div_le_iff₀ positive).2 below⟩

/-! ## The mean of maximum -/

/-- The mean of some samples lies between them. -/
theorem contains_meanOf {range : Range Exact} (h : range.Proper) {samples : List Exact}
    (nonempty : samples ≠ []) (inside : ∀ x ∈ samples, range.Contains x) :
    range.Contains (meanOf samples) := by
  obtain ⟨p, r, rfl, -⟩ := h.exists_finite
  obtain ⟨xs, rfl⟩ : samples ∈ Set.range (List.map finite) := by
    rw [Set.range_list_map]
    intro x hx
    obtain ⟨q, rfl, -⟩ := (inside x hx).exists_finite
    exact ⟨q, rfl⟩
  simp only [List.forall_mem_map, Range.contains_finite_iff] at inside
  have nonempty : xs ≠ [] := List.map_eq_nil_iff.not.1 nonempty
  have positive : (0 : Rat) < xs.length := Nat.cast_pos.2 (List.length_pos_iff.2 nonempty)
  have above := xs.card_nsmul_le_sum p fun x hx => (inside x hx).1
  have below := xs.sum_le_card_nsmul r fun x hx => (inside x hx).2
  rw [nsmul_eq_mul, mul_comm] at above below
  rw [meanOf_finite nonempty, Range.contains_finite_iff]
  exact ⟨(le_div_iff₀ positive).2 above, (div_le_iff₀ positive).2 below⟩

theorem Exact.distance_self (q : Rat) : Scalar.distance (finite q) (finite q) = 0 := by
  rw [Scalar.distance, if_pos (Exact.le_refl (a := finite q) nofun), finite_sub_finite, sub_self]
  rfl

/-- Where some sample has a degree above zero, one of them reaches the greatest. -/
theorem samplesAt_peak_ne_nil {m : FuzzySet Exact} {samples : List Exact}
    (numbers : ∀ x ∈ samples, Scalar.isFinite (m.degree x) = true) (h : 0 < peak m samples) :
    samplesAt m (peak m samples) samples ≠ [] := by
  have reached : peak m samples ∈ 0 :: samples.map m.degree :=
    Exact.foldl_mem (fun a b => (Exact.greatest_spec a b).1) _ _
  rcases List.mem_cons.1 reached with zero | reached
  · rw [zero] at h
    cases h
  · obtain ⟨x, hx, same⟩ := List.mem_map.1 reached
    obtain ⟨y, hy⟩ := Exact.isFinite_iff.1 (numbers x hx)
    apply List.ne_nil_of_mem (a := x)
    rw [samplesAt, List.mem_filter]
    refine ⟨hx, ?_⟩
    rw [← same, hy, Exact.distance_self]
    decide +kernel

/-- The mean of maximum is the midpoint, or else the mean of some samples. -/
theorem meanOfMaximum_cases (steps : Nat) (m : FuzzySet Exact) (range : Range Exact) :
    meanOfMaximum steps m range = range.midpoint ∨
      ∃ height, samplesAt m height (Samples.ofSteps range steps).toList ≠ [] ∧
        meanOfMaximum steps m range =
          meanOf (samplesAt m height (Samples.ofSteps range steps).toList) := by
  unfold meanOfMaximum
  split
  · exact .inl rfl
  · simp only
    split
    · exact .inl rfl
    · split
      · exact .inl rfl
      · next maximal =>
        rw [List.isEmpty_iff] at maximal
        exact .inr ⟨_, maximal, rfl⟩

/-- The mean of maximum is the mean of the maximal samples, where one has a degree above zero. -/
theorem meanOfMaximum_of_peak_pos {range : Range Exact} (h : range.Proper)
    (wide : range.low < range.high) {m : FuzzySet Exact} {steps : Nat}
    (numbers : ∀ x ∈ (Samples.ofSteps range steps).toList, Scalar.isFinite (m.degree x) = true)
    (positive : 0 < peak m (Samples.ofSteps range steps).toList) :
    meanOfMaximum steps m range = meanOf
      (samplesAt m (peak m (Samples.ofSteps range steps).toList)
        (Samples.ofSteps range steps).toList) := by
  have maximal := samplesAt_peak_ne_nil numbers positive
  have sampled : Scalar.sampleable range.low range.high = true := by
    simp [Scalar.sampleable, h.low, h.high, wide]
  have nonzero := Scalar.not_beq_of_lt (.inr positive)
  rw [meanOfMaximum, sampled, Bool.not_true, if_neg Bool.false_ne_true]
  simp only
  rw [if_neg nonzero, if_neg (List.isEmpty_iff.not.2 maximal), meanOf]

/-- Whichever samples count as maximal, they lie in the range. -/
theorem contains_meanOfMaximum {range : Range Exact} (h : range.Proper) (m : FuzzySet Exact)
    (steps : Nat) : range.Contains (meanOfMaximum steps m range) := by
  rcases meanOfMaximum_cases steps m range with middle | ⟨height, maximal, mean⟩
  · rw [middle]
    exact h.contains_midpoint
  · rw [mean]
    apply contains_meanOf h maximal
    intro x hx
    exact Samples.contains_of_mem h (List.mem_of_mem_filter hx)

/-! ## Engines -/

/-- The crisp value of a bounded fuzzy set lies in the range, by either method. -/
theorem contains_defuzzifier {range : Range Exact} (h : range.Proper) {m : FuzzySet Exact}
    (bounded : m.Bounded) (d : Defuzzification) : range.Contains (d.defuzzifier m range) := by
  obtain ⟨method, steps⟩ := d
  cases method with
  | centroid =>
    apply contains_centroid h
    intro x _
    obtain ⟨y, hy, -⟩ := (bounded x).exists_finite
    exact ⟨Exact.isFinite_iff.2 ⟨y, hy⟩, (bounded x).1⟩
  | meanOfMaximum => exact contains_meanOfMaximum h m steps.toNat

/-- The rules and the variables of the engine are read from sources, errors or not. The variables
have finite numbers, and the functions in them are the built-in ones, under whatever names. -/
structure Engine.IsRead (engine : Engine Exact) : Prop where
  rules : ∀ r ∈ engine.rules,
    ∃ (table : FunctionTable Exact) (source : String), r ∈ (parse table source).document.rules
  definitions : ∀ v ∈ engine.catalog.entries,
    ∃ entries source, v ∈ (parse (.ofBuiltIns entries) source).document.definitions
  numbers : ∀ v ∈ engine.catalog.entries, ∀ t ∈ v.terms, ∀ x ∈ t.fuzzySet.numbers,
    Scalar.isFinite x = true

namespace Engine

variable {engine : Engine Exact} {inputs : Inputs Exact} {outputs : Outputs Exact}

theorem IsRead.bounded_outputs (h : engine.IsRead) (succeeds : engine.infer inputs = .ok outputs) :
    outputs.Bounded := by
  have bounded : engine.catalog.Bounded := by
    intro v hv t ht
    obtain ⟨entries, source, read⟩ := h.definitions v hv
    have keeps := FunctionTable.keeps_ofBuiltIns (α := Exact) entries
    obtain ⟨-, readable⟩ := (keeps.readable_of_mem_definitions read).2 t ht
    exact readable.bounded (h.numbers v hv t ht)
  obtain ⟨firings, fires, rfl⟩ := infer_eq_ok_iff.1 succeeds
  apply Outputs.bounded_collect
  intro f hf
  obtain ⟨r, hr, fired⟩ := (mem_results_iff fires).1 hf
  obtain ⟨table, source, read⟩ := h.rules r hr
  exact bounded_of_fire bounded (readable_of_mem_rules read).1 fired

end Engine

theorem Outputs.Bounded.of_mem_values {outputs : Outputs Exact} (h : outputs.Bounded) {v : String}
    {terms : TermOutputs Exact} (found : outputs.get? v = some terms) {output : TermOutput Exact}
    (ho : output ∈ terms.values) : output.Bounded := by
  obtain ⟨n, ho⟩ := Outputs.exists_term?_of_mem_values found ho
  exact h v n output ho

theorem Engine.contains_defuzzify {engine : Engine Exact} {d : Defuzzification}
    (method : engine.defuzzifier = d.defuzzifier) {outputs : Outputs Exact}
    (bounded : outputs.Bounded) {name : String} {v : Variable Exact}
    (defined : engine.catalog.lookup name = .ok v) (proper : v.universeRange.Proper) :
    ∃ y, engine.defuzzify name outputs = .ok y ∧ v.universeRange.Contains y := by
  rw [defuzzify, defined]
  cases found : outputs.get? name with
  | none => exact ⟨_, rfl, proper.contains_midpoint⟩
  | some terms =>
    cases hv : terms.values with
    | nil =>
      refine ⟨_, ?_, proper.contains_midpoint⟩
      simp [hv]
    | cons output rest =>
      refine ⟨d.defuzzifier (.max ((output :: rest).map (·.fuzzySet))) v.universeRange, ?_, ?_⟩
      · simp [hv, method]
      · apply contains_defuzzifier proper
        apply FuzzySet.bounded_max (by simp)
        intro m hm
        obtain ⟨o, ho, rfl⟩ := List.mem_map.1 hm
        exact (bounded.of_mem_values found (hv ▸ ho)).fuzzySet

/-- Of a fuzzy set of finite numbers without an empty minimum or maximum, both methods give a number
that has not come of any division by zero, whatever the number of steps. The mean of maximum lies in
the range, and where some sample has a degree above zero there are maximal ones and it is their
mean. The centroid lies in the range if no degree there is negative. So whatever an engine infers
from rules and variables that were read, with finite numbers in them, the crisp value of a variable
lies in its universe. -/
theorem crisp_value_mem_range :
    (∀ (m : FuzzySet Exact) (steps : Nat) (range : Range Exact), m.Populated →
      (∀ x ∈ m.numbers, Scalar.isFinite x = true) → range.Proper →
        (∀ quotient : Exact → Exact,
          @centroid Exact (Exact.dividing quotient) steps m range = centroid steps m range ∧
          @meanOfMaximum Exact (Exact.dividing quotient) steps m range =
            meanOfMaximum steps m range) ∧
        Scalar.isFinite (centroid steps m range) = true ∧
        range.Contains (meanOfMaximum steps m range) ∧
        (0 < peak m (Samples.ofSteps range steps).toList →
          samplesAt m (peak m (Samples.ofSteps range steps).toList)
            (Samples.ofSteps range steps).toList ≠ []) ∧
        (range.low < range.high → 0 < peak m (Samples.ofSteps range steps).toList →
          meanOfMaximum steps m range = meanOf (samplesAt m
            (peak m (Samples.ofSteps range steps).toList) (Samples.ofSteps range steps).toList)) ∧
        ((∀ x, range.Contains x → 0 ≤ m.degree x) → range.Contains (centroid steps m range))) ∧
    ∀ (engine : Engine Exact) (d : Defuzzification) (inputs : Inputs Exact)
      (outputs : Outputs Exact) (name : String) (v : Variable Exact),
      engine.IsRead → engine.defuzzifier = d.defuzzifier → engine.infer inputs = .ok outputs →
      engine.catalog.lookup name = .ok v → v.universeRange.Proper →
        ∃ y, engine.defuzzify name outputs = .ok y ∧ v.universeRange.Contains y := by
  constructor
  · intro m steps range populated numbers proper
    have degrees (x : Exact) (inside : range.Contains x) : Scalar.isFinite (m.degree x) = true :=
      populated.isFinite_degree numbers (proper.isFinite_of_contains inside)
    have number := isFinite_centroid proper degrees steps
    have sampled (x) (hx : x ∈ (Samples.ofSteps range steps).toList) :
        Scalar.isFinite (m.degree x) = true := degrees x (Samples.contains_of_mem proper hx)
    refine ⟨?_, number, contains_meanOfMaximum proper m steps, samplesAt_peak_ne_nil sampled,
      fun wide => meanOfMaximum_of_peak_pos proper wide sampled, ?_⟩
    · intro quotient
      exact ⟨centroid_dividing quotient numbers steps range,
        meanOfMaximum_dividing quotient numbers steps range⟩
    · intro weights
      apply contains_centroid proper
      intro x inside
      exact ⟨degrees x inside, weights x inside⟩
  · intro engine d inputs outputs name v read method succeeds defined proper
    exact Engine.contains_defuzzify method (read.bounded_outputs succeeds) defined proper

/-- The variable of `outerPeakSource` with a ramp for its term. -/
def rampSource : String := "DEFINE sun (TERM high LINEAR(0, 2));"

def rampDocument : Document Exact where
  rules := []
  definitions := [⟨"sun", [⟨"high", .linear (finite 0) (finite 2)⟩], by decide⟩]

def rampEngine : Engine Exact where
  rules := outerPeakDocument.rules
  catalog := ⟨rampDocument.definitions, by decide⟩
  defuzzifier := Defuzzification.defuzzifier ⟨.meanOfMaximum, 0⟩

section Derivation

open Grammar

theorem derivesProgram_ramp :
    DerivesProgram (lexemes rampSource.toList) rampDocument.sentences := by
  have words : lexemes rampSource.toList =
      ["DEFINE", "sun", "(", "TERM", "high", "LINEAR", "(", "0", ",", "2", ")", ")"] ++ [";"] := by
    rw [rampSource]
    decide +kernel
  have zero : DerivesNumber "0" (finite 0) := derivesNumber_of_read? (by decide +kernel)
  have two : DerivesNumber "2" (finite 2) := derivesNumber_of_read? (by decide +kernel)
  have numbers : DerivesNumbers ["0", ",", "2"] [finite 0, finite 2] :=
    (DerivesNumbers.first zero).comma (by simp) two
  have ramp : Makes .linear [finite 0, finite 2] (.linear (finite 0) (finite 2)) :=
    .linear (finite 0) (finite 2)
  have term : DerivesTerm ["TERM", "high", "LINEAR", "(", "0", ",", "2", ")"]
      ⟨"high", .linear (finite 0) (finite 2)⟩ :=
    .termWord (by decide +kernel) (.call (by decide +kernel) (.parens numbers) ramp)
  rw [words]
  exact .semicolon (.define (by decide +kernel) (.last term)) .nil

end Derivation

theorem isRead_rampEngine : rampEngine.IsRead where
  rules := by
    have clean := toExcept_parse_of_derives derivesProgram_outerPeak
    intro r hr
    exact ⟨.standard, outerPeakSource, by rwa [(Parsing.toExcept_eq_ok_iff.1 clean).2]⟩
  definitions := by
    have clean := toExcept_parse_of_derives derivesProgram_ramp
    intro v hv
    refine ⟨BuiltIn.all.map fun f => (f.name, f), rampSource, ?_⟩
    change v ∈ (parse .standard rampSource).document.definitions
    rwa [(Parsing.toExcept_eq_ok_iff.1 clean).2]
  numbers := by decide +kernel

/-- The ramp of `rampSource`, raised to one half where it is below. -/
def raisedRamp : FuzzySet Exact := .max [.linear (finite 0) (finite 2), .constant (finite (1 / 2))]

theorem crisp_value_mem_range_raised_ramp :
    (raisedRamp.Populated ∧ (∀ x ∈ raisedRamp.numbers, Scalar.isFinite x = true) ∧
      (Range.mk (finite 0) (finite 3)).Proper ∧
      (Range.mk (finite 0) (finite 3)).Contains (meanOfMaximum 0 raisedRamp ⟨finite 0, finite 3⟩) ∧
      (Range.mk (finite 0) (finite 3)).Contains (centroid 0 raisedRamp ⟨finite 0, finite 3⟩)) ∧
    rampEngine.IsRead ∧ ∃ outputs v y,
      rampEngine.infer (.ofList [("sun", finite (1 / 2))]) = .ok outputs ∧
      rampEngine.catalog.lookup "sun" = .ok v ∧ v.universeRange.Proper ∧
      rampEngine.defuzzify "sun" outputs = .ok y ∧ v.universeRange.Contains y := by
  have populated : raisedRamp.Populated := by
    apply FuzzySet.Populated.max
    · simp
    · simpa using ⟨.linear _ _, .constant _⟩
  have numbers : ∀ x ∈ raisedRamp.numbers, Scalar.isFinite x = true := by decide +kernel
  have proper : (Range.mk (finite 0) (finite 3)).Proper := ⟨rfl, rfl, by decide +kernel⟩
  have bounded : raisedRamp.Bounded := by
    apply FuzzySet.bounded_max
    · simp
    · have ramp : (FuzzySet.linear (finite 0) (finite 2)).Bounded :=
        (ReadableSet.linear rfl).bounded (by decide +kernel)
      have level : (FuzzySet.constant (finite (1 / 2))).Bounded := by
        intro x
        rw [FuzzySet.degree, isDegree_finite_iff]
        norm_num
      exact List.forall_mem_cons.2 ⟨ramp, List.forall_mem_singleton.2 level⟩
  obtain ⟨-, -, mean, -, maximal, centre⟩ :=
    crisp_value_mem_range.1 raisedRamp 0 _ populated numbers proper
  refine ⟨⟨populated, numbers, proper, mean, centre fun x _ => (bounded x).1⟩,
    isRead_rampEngine, ?_⟩
  have succeeds :
      (rampEngine.infer (.ofList [("sun", finite (1 / 2))])).toOption.isSome = true := by
    decide +kernel
  obtain ⟨outputs, inferred⟩ := Option.isSome_iff_exists.1 succeeds
  rw [toOption_eq_some_iff] at inferred
  obtain ⟨y, value, inside⟩ := crisp_value_mem_range.2 rampEngine ⟨.meanOfMaximum, 0⟩ _ outputs
    "sun" _ isRead_rampEngine rfl inferred rfl ⟨rfl, rfl, by decide +kernel⟩
  exact ⟨outputs, _, y, inferred, rfl, ⟨rfl, rfl, by decide +kernel⟩, value, inside⟩

end FuzzyInference
