import FuzzyInference.Proofs.Accumulation
import FuzzyInference.Proofs.Chains
import FuzzyInference.Proofs.RuleSets

/-!
# What a domain covers

Outside its domain a fuzzy set does not vary. That depends on how scalars compare, and on no
arithmetic.

* `FuzzySet.Orderly`: fuzzy sets whose parameters are in order;
* `FuzzySet.ConstantOutside`: one degree for all numbers below a range, and one for all above it;
* `Range.within_unionAll`: the least range around several ranges has each of them in it;
* `FuzzySet.Orderly.constantOutside`: what varies in an orderly fuzzy set is in its domain;
* `FuzzySet.MadeOf`: whatever is made of some fuzzy sets, and `Engine.madeOf_infer`: what is
  inferred on a variable is made of its terms;
* `constant_outside_domain`: fuzzy sets, variables and engines.
-/

namespace FuzzyInference

open Scalar (Defined least greatest)

variable {α : Type} [Scalar α]

/-! ## Ranges -/

namespace Range

structure Within (r s : Range α) : Prop where
  low : s.low ≤ r.low
  high : r.high ≤ s.high

variable [Scalar.Comparable α] {r s t : Range α} {ranges : List (Range α)}

theorem Within.trans (h : r.Within s) (h' : s.Within t) : r.Within t where
  low := Scalar.Ordered.le_trans h'.low h.low
  high := Scalar.Ordered.le_trans h.high h'.high

/-- If a range has its ends the right way round, so has every range around it. -/
theorem Within.ordered (h : r.Within s) (hr : r.low ≤ r.high) : s.low ≤ s.high :=
  Scalar.Ordered.le_trans h.low (Scalar.Ordered.le_trans hr h.high)

theorem within_refl (h : r.low ≤ r.high) : r.Within r where
  low := (Scalar.Ordered.defined_of_le h).1.le_refl
  high := (Scalar.Ordered.defined_of_le h).2.le_refl

theorem within_union (hr : r.low ≤ r.high) (hs : s.low ≤ s.high) :
    r.Within (r.union s) ∧ s.Within (r.union s) := by
  obtain ⟨rLow, rHigh⟩ := Scalar.Ordered.defined_of_le hr
  obtain ⟨sLow, sHigh⟩ := Scalar.Ordered.defined_of_le hs
  obtain ⟨-, low, low'⟩ := least_cases rLow sLow
  obtain ⟨-, high, high'⟩ := greatest_cases rHigh sHigh
  exact ⟨⟨low, high⟩, ⟨low', high'⟩⟩

/-- The union of several ranges lies around each of them. -/
theorem within_foldl_union (hr : r.low ≤ r.high) (each : ∀ s ∈ ranges, s.low ≤ s.high) :
    r.Within (ranges.foldl union r) ∧ ∀ s ∈ ranges, s.Within (ranges.foldl union r) := by
  induction ranges generalizing r with
  | nil => exact ⟨within_refl hr, nofun⟩
  | cons s ranges ih =>
    rw [List.forall_mem_cons] at each
    obtain ⟨hs, others⟩ := each
    obtain ⟨before, next⟩ := within_union hr hs
    obtain ⟨both, after⟩ := ih (before.ordered hr) others
    exact ⟨before.trans both, List.forall_mem_cons.2 ⟨next.trans both, after⟩⟩

/-- The union of several ranges can be started from the first one in place of the empty range. -/
theorem unionAll_cons (low : Defined r.low) (high : Defined r.high) :
    unionAll (r :: ranges) = ranges.foldl union r := by
  have first : empty.union r = r := by
    rw [union, empty, least_posInf low, greatest_negInf high]
  rw [unionAll, List.foldl_cons, first]

theorem within_unionAll (each : ∀ r ∈ ranges, r.low ≤ r.high) :
    ∀ r ∈ ranges, r.Within (unionAll ranges) := by
  cases ranges with
  | nil => nofun
  | cons r ranges =>
    rw [List.forall_mem_cons] at each
    obtain ⟨hr, others⟩ := each
    obtain ⟨low, high⟩ := Scalar.Ordered.defined_of_le hr
    obtain ⟨first, after⟩ := within_foldl_union hr others
    rw [unionAll_cons low high]
    exact List.forall_mem_cons.2 ⟨first, after⟩

end Range

/-! ## Fuzzy sets -/

namespace FuzzySet

variable {m : FuzzySet α} {ms parts : List (FuzzySet α)} {range range' : Range α} {a b c d x : α}

/-- All numbers below the range have one degree, and so have all numbers above it. -/
structure ConstantOutside (m : FuzzySet α) (range : Range α) : Prop where
  below : ∀ x y, x < range.low → y < range.low → m.degree x = m.degree y
  above : ∀ x y, range.high < x → range.high < y → m.degree x = m.degree y

theorem constantOutside_of_degrees {low high : α} (below : ∀ x, x < range.low → m.degree x = low)
    (above : ∀ x, range.high < x → m.degree x = high) : m.ConstantOutside range where
  below x y hx hy := (below x hx).trans (below y hy).symm
  above x y hx hy := (above x hx).trans (above y hy).symm

theorem constantOutside_constant (y : α) (range : Range α) :
    (constant y).ConstantOutside range := by
  apply constantOutside_of_degrees
  · intro x _
    rw [degree]
  · intro x _
    rw [degree]

theorem ConstantOutside.inverted (h : m.ConstantOutside range) :
    (FuzzySet.inverted m).ConstantOutside range where
  below x y hx hy := by rw [degree, degree, h.below x y hx hy]
  above x y hx hy := by rw [degree, degree, h.above x y hx hy]

theorem degrees_congr {y : α} (each : ∀ m ∈ ms, m.degree x = m.degree y) :
    degrees ms x = degrees ms y := by
  rw [degrees_eq_map, degrees_eq_map]
  exact List.map_congr_left each

theorem constantOutside_min (each : ∀ m ∈ ms, m.ConstantOutside range) :
    (FuzzySet.min ms).ConstantOutside range where
  below x y hx hy := by
    rw [degree, degree, degrees_congr fun m hm => (each m hm).below x y hx hy]
  above x y hx hy := by
    rw [degree, degree, degrees_congr fun m hm => (each m hm).above x y hx hy]

theorem constantOutside_max (each : ∀ m ∈ ms, m.ConstantOutside range) :
    (FuzzySet.max ms).ConstantOutside range where
  below x y hx hy := by
    rw [degree, degree, degrees_congr fun m hm => (each m hm).below x y hx hy]
  above x y hx hy := by
    rw [degree, degree, degrees_congr fun m hm => (each m hm).above x y hx hy]

section

variable [Scalar.Comparable α]

theorem ConstantOutside.mono (h : m.ConstantOutside range) (within : range.Within range') :
    m.ConstantOutside range' where
  below x y hx hy :=
    h.below x y (Scalar.lt_of_lt_of_le hx within.low) (Scalar.lt_of_lt_of_le hy within.low)
  above x y hx hy :=
    h.above x y (Scalar.lt_of_le_of_lt within.high hx) (Scalar.lt_of_le_of_lt within.high hy)

/-- A linear set is constant outside its domain, whichever parameter is the greater one. -/
theorem constantOutside_linear (ha : Defined a) (hb : Defined b) :
    (linear a b).ConstantOutside (linear a b).domain := by
  obtain ⟨-, low, -⟩ := least_cases ha hb
  obtain ⟨-, first, last⟩ := greatest_cases ha hb
  rw [domain]
  apply constantOutside_of_degrees
  · intro x hx
    rw [degree, interpolate_of_lt (Scalar.lt_of_lt_of_le hx low)]
  · intro x hx
    have started := Scalar.not_lt_of_le (Scalar.le_of_lt (Scalar.lt_of_le_of_lt first hx))
    rw [degree, interpolate_beyond started (Scalar.lt_of_le_of_lt last hx), interpolate_nil]

/-- Outside its feet a triangle is zero, since the peak is not there. -/
theorem constantOutside_triangular (hab : a ≤ b) (hbc : b ≤ c) :
    (triangular a b c).ConstantOutside (triangular a b c).domain := by
  rw [domain]
  apply constantOutside_of_degrees
  · intro x hx
    rw [degree, triangleDegree_outside (.inl (Scalar.le_of_lt hx)),
      if_neg (Scalar.not_beq_of_lt (.inl (Scalar.lt_of_lt_of_le hx hab)))]
  · intro x hx
    rw [degree, triangleDegree_outside (.inr (Scalar.le_of_lt hx)),
      if_neg (Scalar.not_beq_of_lt (.inr (Scalar.lt_of_le_of_lt hbc hx)))]

theorem constantOutside_trapezoid (hab : a ≤ b) (hcd : c ≤ d) :
    (trapezoid a b c d).ConstantOutside (trapezoid a b c d).domain := by
  rw [domain]
  apply constantOutside_of_degrees
  · intro x hx
    rw [degree, trapezoidDegree_outside _ (.inl (Scalar.le_of_lt hx))]
    rintro ⟨top, -⟩
    exact Scalar.not_le_of_lt (Scalar.lt_of_lt_of_le hx hab) top
  · intro x hx
    rw [degree, trapezoidDegree_outside _ (.inr (Scalar.le_of_lt hx))]
    rintro ⟨-, top⟩
    exact Scalar.not_le_of_lt (Scalar.lt_of_le_of_lt hcd hx) top

end

/-- No number in the set is undefined, and no minimum and no maximum is one of nothing. The
parameters of triangles and trapezoids do not decrease. Those of a linear set may be in either
order. -/
inductive Orderly : FuzzySet α → Prop
  | constant {y : α} (defined : Defined y) : Orderly (.constant y)
  | linear {a b : α} (foot : Defined a) (top : Defined b) : Orderly (.linear a b)
  | triangular {a b c : α} (hab : a ≤ b) (hbc : b ≤ c) : Orderly (.triangular a b c)
  | trapezoid {a b c d : α} (hab : a ≤ b) (hbc : b ≤ c) (hcd : c ≤ d) :
      Orderly (.trapezoid a b c d)
  | inverted {m : FuzzySet α} (inner : Orderly m) : Orderly (.inverted m)
  | min {ms : List (FuzzySet α)} (nonempty : ms ≠ []) (each : ∀ m ∈ ms, Orderly m) :
      Orderly (.min ms)
  | max {ms : List (FuzzySet α)} (nonempty : ms ≠ []) (each : ∀ m ∈ ms, Orderly m) :
      Orderly (.max ms)

section

variable [Scalar.Comparable α]

theorem within_unionAll_domains (ordered : ∀ m ∈ ms, m.domain.low ≤ m.domain.high) :
    ∀ m ∈ ms, m.domain.Within (Range.unionAll (domains ms)) := by
  rw [domains_eq_map]
  exact List.forall_mem_map.1 (Range.within_unionAll (List.forall_mem_map.2 ordered))

theorem unionAll_domains_ordered (nonempty : ms ≠ [])
    (ordered : ∀ m ∈ ms, m.domain.low ≤ m.domain.high) :
    (Range.unionAll (domains ms)).low ≤ (Range.unionAll (domains ms)).high := by
  obtain ⟨m, hm⟩ := List.exists_mem_of_ne_nil ms nonempty
  exact (within_unionAll_domains ordered m hm).ordered (ordered m hm)

theorem Orderly.domain_ordered (h : m.Orderly) : m.domain.low ≤ m.domain.high := by
  induction h with
  | constant defined =>
    rw [domain]
    exact defined.le_refl
  | linear foot top =>
    rw [domain]
    exact Scalar.Ordered.le_trans (least_cases foot top).2.1 (greatest_cases foot top).2.1
  | triangular hab hbc =>
    rw [domain]
    exact Scalar.Ordered.le_trans hab hbc
  | trapezoid hab hbc hcd =>
    rw [domain]
    exact Scalar.Ordered.le_trans hab (Scalar.Ordered.le_trans hbc hcd)
  | inverted _ ih => rwa [domain]
  | min nonempty _ ih | max nonempty _ ih =>
    rw [domain]
    exact unionAll_domains_ordered nonempty ih

/-- What is constant outside its own domain is so outside all of them. -/
theorem constantOutside_unionAll (ordered : ∀ m ∈ ms, m.domain.low ≤ m.domain.high)
    (each : ∀ m ∈ ms, m.ConstantOutside m.domain) :
    ∀ m ∈ ms, m.ConstantOutside (Range.unionAll (domains ms)) := by
  intro m hm
  exact (each m hm).mono (within_unionAll_domains ordered m hm)

theorem Orderly.constantOutside (h : m.Orderly) : m.ConstantOutside m.domain := by
  induction h with
  | constant defined => exact constantOutside_constant _ _
  | linear foot top => exact constantOutside_linear foot top
  | triangular hab hbc => exact constantOutside_triangular hab hbc
  | trapezoid hab _ hcd => exact constantOutside_trapezoid hab hcd
  | inverted _ ih =>
    rw [domain]
    exact ih.inverted
  | min _ each ih =>
    rw [domain]
    exact constantOutside_min
      (constantOutside_unionAll (fun m hm => (each m hm).domain_ordered) ih)
  | max _ each ih =>
    rw [domain]
    exact constantOutside_max
      (constantOutside_unionAll (fun m hm => (each m hm).domain_ordered) ih)

end

/-! ## What is made of fuzzy sets -/

/-- What comes of these fuzzy sets and of any constants by inversion, minimum and maximum. -/
inductive MadeOf (parts : List (FuzzySet α)) : FuzzySet α → Prop
  | part {m : FuzzySet α} (member : m ∈ parts) : MadeOf parts m
  | constant (y : α) : MadeOf parts (.constant y)
  | inverted {m : FuzzySet α} (inner : MadeOf parts m) : MadeOf parts (.inverted m)
  | min {ms : List (FuzzySet α)} (each : ∀ m ∈ ms, MadeOf parts m) : MadeOf parts (.min ms)
  | max {ms : List (FuzzySet α)} (each : ∀ m ∈ ms, MadeOf parts m) : MadeOf parts (.max ms)

omit [Scalar α] in
theorem MadeOf.clip (h : MadeOf parts m) (y : α) : MadeOf parts (m.clip y) := by
  apply min
  simpa using ⟨constant y, h⟩

/-- Where the parts are constant, all that is made of them is. -/
theorem MadeOf.constantOutside (h : MadeOf parts m)
    (each : ∀ p ∈ parts, p.ConstantOutside range) : m.ConstantOutside range := by
  induction h with
  | part member => exact each _ member
  | constant y => exact constantOutside_constant y range
  | inverted _ ih => exact ih.inverted
  | min _ ih => exact constantOutside_min ih
  | max _ ih => exact constantOutside_max ih

end FuzzySet

open FuzzySet (MadeOf)

theorem Variable.universeRange_eq (v : Variable α) :
    v.universeRange = .unionAll (FuzzySet.domains (v.terms.map (·.fuzzySet))) := by
  rw [universeRange, FuzzySet.domains_eq_map, List.map_map]
  rfl

theorem Variable.constantOutside_universeRange [Scalar.Comparable α] {v : Variable α}
    (orderly : ∀ t ∈ v.terms, t.fuzzySet.Orderly) {m : FuzzySet α}
    (h : MadeOf (v.terms.map (·.fuzzySet)) m) : m.ConstantOutside v.universeRange := by
  rw [universeRange_eq]
  apply h.constantOutside
  apply FuzzySet.constantOutside_unionAll
  · exact List.forall_mem_map.2 fun t ht => (orderly t ht).domain_ordered
  · exact List.forall_mem_map.2 fun t ht => (orderly t ht).constantOutside

/-! ## Engines -/

/-- One more conclusion on a term caps the fuzzy set of that term. -/
theorem Firing.madeOf_join {f : Firing α} {parts : List (FuzzySet α)}
    (part : f.term.fuzzySet ∈ parts) {output : Option (TermOutput α)}
    (earlier : ∀ o ∈ output, MadeOf parts o.fuzzySet) : MadeOf parts (f.join output).fuzzySet := by
  have clipped := (MadeOf.part part).clip f.degree
  cases output with
  | none => exact clipped
  | some o =>
    apply MadeOf.max
    simpa using ⟨earlier o rfl, clipped⟩

theorem Engine.madeOf_infer {engine : Engine α} {inputs : Inputs α} {outputs : Outputs α}
    (succeeds : engine.infer inputs = .ok outputs) {name n : String} {v : Variable α}
    (defined : engine.catalog.lookup name = .ok v) {output : TermOutput α}
    (ho : outputs.term? name n = some output) :
    MadeOf (v.terms.map (·.fuzzySet)) output.fuzzySet := by
  obtain ⟨firings, fires, rfl⟩ := infer_eq_ok_iff.1 succeeds
  refine Outputs.forall_term?_collect (P := fun name _ output => ∀ v,
    engine.catalog.lookup name = .ok v → MadeOf (v.terms.map (·.fuzzySet)) output.fuzzySet)
    ?_ name n output ho v defined
  intro f hf output earlier v defined
  obtain ⟨r, -, fired⟩ := (mem_results_iff fires).1 hf
  unfold Rule.fire at fired
  simp only [bind_eq_ok_iff] at fired
  obtain ⟨w, hw, t, ht, y, -, ⟨⟩⟩ := fired
  obtain rfl : w = v := Except.ok.inj (hw.symm.trans defined)
  apply Firing.madeOf_join
  · exact List.mem_map_of_mem (Variable.term_mem ht)
  · intro o member
    exact earlier o member w hw

/-- The domain of an orderly fuzzy set has its ends the right way round, and the set is constant on
either side of it. So outside the universe of a variable with orderly terms all that is made of
these terms and of constants is constant on either side: the terms, what is capped, and any minimum
and maximum. That goes for the outputs of an engine, and for their maximum, which is what a crisp
value is taken from. -/
theorem constant_outside_domain [Scalar.Comparable α] :
    (∀ m : FuzzySet α, m.Orderly →
      m.domain.low ≤ m.domain.high ∧ m.ConstantOutside m.domain) ∧
    (∀ v : Variable α, (∀ t ∈ v.terms, t.fuzzySet.Orderly) →
      ∀ m, MadeOf (v.terms.map (·.fuzzySet)) m → m.ConstantOutside v.universeRange) ∧
    ∀ (engine : Engine α) (inputs : Inputs α) (outputs : Outputs α),
      engine.infer inputs = .ok outputs →
      ∀ name v terms, engine.catalog.lookup name = .ok v →
        (∀ t ∈ v.terms, t.fuzzySet.Orderly) → outputs.get? name = some terms →
        (∀ output ∈ terms.values, output.fuzzySet.ConstantOutside v.universeRange) ∧
          (FuzzySet.max (terms.values.map (·.fuzzySet))).ConstantOutside v.universeRange := by
  refine ⟨?_, ?_, ?_⟩
  · intro m orderly
    exact ⟨orderly.domain_ordered, orderly.constantOutside⟩
  · intro v orderly m made
    exact v.constantOutside_universeRange orderly made
  · intro engine inputs outputs succeeds name v terms defined orderly found
    have each : ∀ output ∈ terms.values, output.fuzzySet.ConstantOutside v.universeRange := by
      intro output member
      obtain ⟨n, ho⟩ := Outputs.exists_term?_of_mem_values found member
      exact v.constantOutside_universeRange orderly (Engine.madeOf_infer succeeds defined ho)
    exact ⟨each, FuzzySet.constantOutside_max (List.forall_mem_map.2 each)⟩

section

open Exact (finite)

/-- A set whose linear part has its parameters the wrong way round, and whose triangle has its peak
over a foot. -/
def nestedSet : FuzzySet Exact :=
  .inverted (.max [.min [.linear (finite 4) (finite 1), .constant (finite 7)],
    .triangular (finite 2) (finite 2) (finite 5)])

theorem orderly_nestedSet : nestedSet.Orderly := by
  have reversed : (FuzzySet.linear (finite 4) (finite 1)).Orderly :=
    .linear (by decide +kernel) (by decide +kernel)
  have level : (FuzzySet.constant (finite 7)).Orderly := .constant (by decide +kernel)
  have hill : (FuzzySet.triangular (finite 2) (finite 2) (finite 5)).Orderly :=
    .triangular (by decide +kernel) (by decide +kernel)
  have lower : (FuzzySet.min [.linear (finite 4) (finite 1), .constant (finite 7)]).Orderly :=
    .min (by simp) (by simpa using ⟨reversed, level⟩)
  exact .inverted (.max (by simp) (by simpa using ⟨lower, hill⟩))

theorem constant_outside_domain_nested :
    (nestedSet.Orderly ∧ nestedSet.domain = ⟨finite 1, finite 7⟩ ∧
      nestedSet.domain.low ≤ nestedSet.domain.high ∧
      nestedSet.ConstantOutside nestedSet.domain) ∧
    ∃ outputs v terms, (sunEngine [sunRises, sunSets]).infer dawn = .ok outputs ∧
      (sunEngine [sunRises, sunSets]).catalog.lookup "sun" = .ok v ∧
      (∀ t ∈ v.terms, t.fuzzySet.Orderly) ∧ outputs.get? "sun" = some terms ∧
      v.universeRange = ⟨finite 0, finite 1⟩ ∧
      (∀ m, MadeOf (v.terms.map (·.fuzzySet)) m → m.ConstantOutside v.universeRange) ∧
      (∀ output ∈ terms.values, output.fuzzySet.ConstantOutside v.universeRange) ∧
      (FuzzySet.max (terms.values.map (·.fuzzySet))).ConstantOutside v.universeRange := by
  obtain ⟨sets, made, engine⟩ := constant_outside_domain (α := Exact)
  have domain : nestedSet.domain = ⟨finite 1, finite 7⟩ := by decide +kernel
  refine ⟨⟨orderly_nestedSet, domain, sets nestedSet orderly_nestedSet⟩, ?_⟩
  have succeeds : ∃ outputs terms, (sunEngine [sunRises, sunSets]).infer dawn = .ok outputs ∧
      outputs.get? "sun" = some terms := by
    have ends : (((sunEngine [sunRises, sunSets]).infer dawn).toOption.bind
        (·.get? "sun")).isSome = true := by decide +kernel
    obtain ⟨terms, ends⟩ := Option.isSome_iff_exists.1 ends
    obtain ⟨outputs, inferred, found⟩ := Option.bind_eq_some_iff.1 ends
    exact ⟨outputs, terms, toOption_eq_some_iff.1 inferred, found⟩
  obtain ⟨outputs, terms, inferred, found⟩ := succeeds
  have ramp : (FuzzySet.linear (finite 0) (finite 1)).Orderly :=
    .linear (by decide +kernel) (by decide +kernel)
  have orderly : ∀ t ∈ [Term.mk "up" (FuzzySet.linear (finite 0) (finite 1))],
      t.fuzzySet.Orderly := List.forall_mem_singleton.2 ramp
  exact ⟨outputs, _, terms, inferred, rfl, orderly, found, by decide +kernel, made _ orderly,
    engine _ _ outputs inferred "sun" _ terms rfl orderly found⟩

end

end FuzzyInference
