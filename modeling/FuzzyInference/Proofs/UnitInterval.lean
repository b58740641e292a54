import FuzzyInference.Proofs.Accumulation
import FuzzyInference.Proofs.ExactOrder
import FuzzyInference.Proofs.RoundTrip
import Mathlib.Algebra.Order.Field.Basic
import Mathlib.Algebra.Order.Field.Rat
import Mathlib.Tactic.FieldSimp
import Mathlib.Tactic.Linarith
import Mathlib.Tactic.Ring

/-!
# Degrees between zero and one

Nothing keeps a degree between zero and one, and yet with finite numbers none of those that a source
leads to is outside.

* `IsDegree`: at least zero and at most one;
* `isDegree_interpolate`: a chain of points whose ordinates are degrees, in whatever order the
  points come;
* `ReadableSet.bounded`, `Readable.isDegree`: fuzzy sets and premises as they are read;
* `Outputs.bounded_collect`: what comes of the conclusions;
* `isDegree_infer`: so all that is inferred from a source is between zero and one.
-/

namespace FuzzyInference

open Scalar (least greatest)

open Exact (finite undefined)

/-- At least zero and at most one. -/
def IsDegree (y : Exact) : Prop := 0 ≤ y ∧ y ≤ 1

theorem isDegree_finite_iff {q : Rat} : IsDegree (finite q) ↔ 0 ≤ q ∧ q ≤ 1 :=
  and_congr Exact.finite_le_finite Exact.finite_le_finite

namespace IsDegree

variable {y z : Exact}

theorem exists_finite (h : IsDegree y) : ∃ q, y = finite q ∧ 0 ≤ q ∧ q ≤ 1 :=
  Exact.exists_finite_of_le h.1 h.2

theorem defined (h : IsDegree y) : y ≠ undefined := (Exact.defined_of_le h.2).1

theorem zero : IsDegree 0 := isDegree_finite_iff.2 ⟨le_refl 0, zero_le_one⟩

theorem one : IsDegree 1 := isDegree_finite_iff.2 ⟨zero_le_one, le_refl 1⟩

theorem one_sub (h : IsDegree y) : IsDegree (1 - y) := by
  obtain ⟨q, rfl, low, high⟩ := h.exists_finite
  have difference : (1 : Exact) - finite q = finite (1 - q) := Exact.finite_sub_finite 1 q
  rw [difference, isDegree_finite_iff]
  constructor <;> linarith

theorem greatest (hy : IsDegree y) (hz : IsDegree z) : IsDegree (greatest y z) := by
  rcases (Exact.greatest_spec y z).1 with same | same
  · rwa [same]
  · rwa [same]

end IsDegree

/-- The least of some degrees is a degree. Of none it would be the seed, which is an infinity. -/
theorem isDegree_least {l : List Exact} (nonempty : l ≠ []) (each : ∀ y ∈ l, IsDegree y) :
    IsDegree (l.foldl least Scalar.posInf) :=
  each _ (Exact.foldl_least_mem nonempty fun y hy => (each y hy).defined)

theorem isDegree_greatest {l : List Exact} (nonempty : l ≠ []) (each : ∀ y ∈ l, IsDegree y) :
    IsDegree (l.foldl greatest Scalar.negInf) :=
  each _ (Exact.foldl_greatest_mem nonempty fun y hy => (each y hy).defined)

/-! ## Interpolation -/

/-- Between two numbers of the unit interval one stays in it. -/
theorem interpolated_mem {p q r y z : Rat} (hp : p ≤ q) (hr : q ≤ r) (wide : p ≠ r)
    (hy : 0 ≤ y ∧ y ≤ 1) (hz : 0 ≤ z ∧ z ≤ 1) :
    0 ≤ y + (q - p) * (z - y) / (r - p) ∧ y + (q - p) * (z - y) / (r - p) ≤ 1 := by
  have width : 0 < r - p := sub_pos.2 (lt_of_le_of_ne (hp.trans hr) wide)
  have share : ∃ t, t = (q - p) / (r - p) ∧ 0 ≤ t ∧ t ≤ 1 := by
    refine ⟨_, rfl, div_nonneg (sub_nonneg.2 hp) width.le, (div_le_one width).2 ?_⟩
    linarith
  obtain ⟨t, ht, low, high⟩ := share
  have mixed : y + (q - p) * (z - y) / (r - p) = (1 - t) * y + t * z := by
    rw [ht]
    field_simp
    ring
  rw [mixed]
  constructor
  · nlinarith
  · nlinarith

/-- A point with a finite abscissa and a degree for its ordinate. -/
structure Point.Sound (p : Point Exact) : Prop where
  finite : ∃ q, p.x = .finite q
  degree : IsDegree p.y

/-- Between two finite points that are not one above the other, the ordinate is a share of theirs.
-/
theorem Segment.value_finite {p r : Rat} (wide : p ≠ r) (y z q : Rat) :
    (Segment.mk ⟨finite p, finite y⟩ ⟨finite r, finite z⟩).value (finite q) =
      finite (y + (q - p) * (z - y) / (r - p)) := by
  have apart : ¬ ((finite p : Exact) == finite r) = true := mt Exact.finite_beq_finite.1 wide
  rw [value, if_neg apart, Exact.finite_sub_finite, Exact.finite_sub_finite,
    Exact.finite_sub_finite, Exact.finite_mul_finite,
    Exact.finite_div_finite _ (sub_ne_zero.2 wide.symm), Exact.finite_add_finite]

theorem Segment.isDegree_value {s : Segment Exact} {x : Exact} (first : s.first.Sound)
    (last : s.last.Sound) (covered : s.covers x = true) : IsDegree (s.value x) := by
  obtain ⟨⟨a, v⟩, ⟨b, w⟩⟩ := s
  obtain ⟨p, rfl⟩ := first.finite
  obtain ⟨r, rfl⟩ := last.finite
  obtain ⟨y, rfl, low⟩ := first.degree.exists_finite
  obtain ⟨z, rfl, high⟩ := last.degree.exists_finite
  obtain ⟨started, ended⟩ := covers_iff.1 covered
  obtain ⟨q, rfl, hq⟩ := Exact.exists_finite_of_le started ended
  by_cases vertical : p = r
  · rw [value, if_pos (Exact.finite_beq_finite.2 vertical)]
    exact last.degree
  · rw [value_finite vertical, isDegree_finite_iff]
    exact interpolated_mem hq.1 hq.2 vertical low high

theorem mem_segments {α : Type} {s : Segment α} {p : Point α} {rest : List (Point α)}
    (h : s ∈ segments p rest) : s.first ∈ p :: rest ∧ s.last ∈ p :: rest := by
  induction rest generalizing p with
  | nil => cases h
  | cons q rest ih =>
    rw [segments, List.mem_cons] at h
    rcases h with rfl | h
    · simp
    · obtain ⟨first, last⟩ := ih h
      exact ⟨List.mem_cons_of_mem p first, List.mem_cons_of_mem p last⟩

/-- A chain of sound points has a degree everywhere, in whatever order the points are. -/
theorem isDegree_interpolate {start : Point Exact} {rest : List (Point Exact)}
    (sound : ∀ p ∈ start :: rest, p.Sound) (x : Exact) : IsDegree (interpolate start rest x) := by
  unfold interpolate
  split
  · exact (sound start List.mem_cons_self).degree
  · cases found : (segments start rest).find? (·.covers x) with
    | some s =>
      obtain ⟨first, last⟩ := mem_segments (List.mem_of_find?_eq_some found)
      have covered : s.covers x = true := by simpa using List.find?_some found
      exact s.isDegree_value (sound _ first) (sound _ last) covered
    | none => exact (sound _ (List.getLast_mem _)).degree

/-! ## Fuzzy sets -/

namespace FuzzySet

/-- Every number belongs to the set to a degree between zero and one. -/
def Bounded (m : FuzzySet Exact) : Prop := ∀ x, IsDegree (m.degree x)

theorem isDegree_degrees {ms : List (FuzzySet Exact)} (each : ∀ m ∈ ms, m.Bounded) (x : Exact) :
    ∀ y ∈ degrees ms x, IsDegree y := by
  rw [degrees_eq_map]
  exact List.forall_mem_map.2 fun m hm => each m hm x

theorem degrees_ne_nil {ms : List (FuzzySet Exact)} (nonempty : ms ≠ []) (x : Exact) :
    degrees ms x ≠ [] := by
  rwa [degrees_eq_map, ne_eq, List.map_eq_nil_iff]

theorem bounded_min {ms : List (FuzzySet Exact)} (nonempty : ms ≠ []) (each : ∀ m ∈ ms, m.Bounded) :
    (FuzzySet.min ms).Bounded := by
  intro x
  rw [degree]
  exact isDegree_least (degrees_ne_nil nonempty x) (isDegree_degrees each x)

theorem bounded_max {ms : List (FuzzySet Exact)} (nonempty : ms ≠ []) (each : ∀ m ∈ ms, m.Bounded) :
    (FuzzySet.max ms).Bounded := by
  intro x
  rw [degree]
  exact isDegree_greatest (degrees_ne_nil nonempty x) (isDegree_degrees each x)

theorem Bounded.clip {m : FuzzySet Exact} (h : m.Bounded) {y : Exact} (hy : IsDegree y) :
    (m.clip y).Bounded := by
  have level : (constant y).Bounded := by
    intro x
    rwa [degree]
  apply bounded_min
  · simp
  · simpa using ⟨level, h⟩

end FuzzySet

theorem sound_of_isFinite {x y : Exact} (h : Scalar.isFinite x = true) (hy : IsDegree y) :
    (Point.mk x y).Sound := by
  cases x with
  | finite q => exact ⟨⟨q, rfl⟩, hy⟩
  | _ => cases h

theorem isDegree_triangleDegree {a b c : Exact} (ha : Scalar.isFinite a = true)
    (hb : Scalar.isFinite b = true) (hc : Scalar.isFinite c = true) (x : Exact) :
    IsDegree (FuzzySet.triangleDegree a b c x) := by
  unfold FuzzySet.triangleDegree
  split
  · split
    · exact .one
    · exact .zero
  · apply isDegree_interpolate
    simpa using ⟨sound_of_isFinite ha .zero, sound_of_isFinite hb .one,
      sound_of_isFinite hc .zero⟩

theorem isDegree_trapezoidDegree {a b c d : Exact} (ha : Scalar.isFinite a = true)
    (hb : Scalar.isFinite b = true) (hc : Scalar.isFinite c = true)
    (hd : Scalar.isFinite d = true) (x : Exact) :
    IsDegree (FuzzySet.trapezoidDegree a b c d x) := by
  unfold FuzzySet.trapezoidDegree
  split
  · exact .one
  · split
    · exact .zero
    · apply isDegree_interpolate
      simpa using ⟨sound_of_isFinite ha .zero, sound_of_isFinite hb .one,
        sound_of_isFinite hc .one, sound_of_isFinite hd .zero⟩

/-- A fuzzy set that can be read is bounded if its numbers are finite, in any order. -/
theorem ReadableSet.bounded {m : FuzzySet Exact} (h : ReadableSet m)
    (numbers : ∀ x ∈ m.numbers, Scalar.isFinite x = true) : m.Bounded := by
  induction h with
  | @linear a b =>
    simp only [FuzzySet.numbers, List.forall_mem_cons] at numbers
    obtain ⟨ha, hb, -⟩ := numbers
    intro x
    rw [FuzzySet.degree]
    apply isDegree_interpolate
    simpa using ⟨sound_of_isFinite ha .zero, sound_of_isFinite hb .one⟩
  | triangular a b c =>
    simp only [FuzzySet.numbers, List.forall_mem_cons] at numbers
    obtain ⟨ha, hb, hc, -⟩ := numbers
    intro x
    rw [FuzzySet.degree]
    exact isDegree_triangleDegree ha hb hc x
  | trapezoid a b c d =>
    simp only [FuzzySet.numbers, List.forall_mem_cons] at numbers
    obtain ⟨ha, hb, hc, hd, -⟩ := numbers
    intro x
    rw [FuzzySet.degree]
    exact isDegree_trapezoidDegree ha hb hc hd x
  | inverted inner ih =>
    intro x
    rw [FuzzySet.degree]
    exact (ih (by simpa [FuzzySet.numbers] using numbers) x).one_sub

/-! ## Premises -/

def Catalog.Bounded (c : Catalog Exact) : Prop :=
  ∀ v ∈ c.entries, ∀ t ∈ v.terms, t.fuzzySet.Bounded

theorem Proposition.isDegree {ctx : Context Exact} (bounded : ctx.catalog.Bounded)
    {p : Proposition} {y : Exact} (h : p.degree ctx = .ok y) : IsDegree y := by
  unfold degree at h
  simp only [bind_eq_ok_iff] at h
  obtain ⟨v, hv, t, ht, x, -, ⟨⟩⟩ := h
  exact bounded v (Catalog.lookup_mem hv) t (Variable.term_mem ht) x

theorem Premise.isDegree_operands {ctx : Context Exact} {ps : List Premise} {ys : List Exact}
    (two : 2 ≤ ps.length) (each : ∀ p ∈ ps, ∀ {y}, p.degree ctx = .ok y → IsDegree y)
    (h : degrees ctx ps = .ok ys) : ys ≠ [] ∧ ∀ y ∈ ys, IsDegree y := by
  rw [degrees_eq_mapM, mapM_eq_ok_iff] at h
  constructor
  · rintro rfl
    obtain rfl := List.forall₂_nil_right_iff.1 h
    simp at two
  · intro y hy
    obtain ⟨p, hp, degree⟩ := (mem_results_iff h).1 hy
    exact each p hp degree

/-- The degree of a premise that can be read lies between zero and one. -/
theorem Readable.isDegree {ctx : Context Exact} (bounded : ctx.catalog.Bounded) {p : Premise}
    (h : Readable p) {y : Exact} (hy : p.degree ctx = .ok y) : IsDegree y := by
  induction h generalizing y with
  | is =>
    rw [Premise.degree] at hy
    exact Proposition.isDegree bounded hy
  | all two _ _ ih =>
    rw [Premise.degree] at hy
    obtain ⟨ys, operands, rfl⟩ := map_eq_ok_iff.1 hy
    obtain ⟨nonempty, each⟩ := Premise.isDegree_operands two ih operands
    exact isDegree_least nonempty each
  | any two _ _ ih =>
    rw [Premise.degree] at hy
    obtain ⟨ys, operands, rfl⟩ := map_eq_ok_iff.1 hy
    obtain ⟨nonempty, each⟩ := Premise.isDegree_operands two ih operands
    exact isDegree_greatest nonempty each
  | not _ ih =>
    rw [Premise.degree] at hy
    obtain ⟨z, operand, rfl⟩ := map_eq_ok_iff.1 hy
    exact (ih operand).one_sub

/-! ## Engines -/

structure Firing.Bounded (f : Firing Exact) : Prop where
  degree : IsDegree f.degree
  fuzzySet : f.term.fuzzySet.Bounded

structure TermOutput.Bounded (output : TermOutput Exact) : Prop where
  degree : IsDegree output.degree
  fuzzySet : output.fuzzySet.Bounded

theorem Firing.Bounded.join {f : Firing Exact} (h : f.Bounded) {output : Option (TermOutput Exact)}
    (earlier : ∀ o ∈ output, o.Bounded) : (f.join output).Bounded := by
  have clipped := h.fuzzySet.clip h.degree
  cases output with
  | none => exact ⟨h.degree, clipped⟩
  | some o =>
    have before := earlier o rfl
    refine ⟨before.degree.greatest h.degree, FuzzySet.bounded_max (by simp) ?_⟩
    simpa using ⟨before.fuzzySet, clipped⟩

namespace Outputs

def Bounded (o : Outputs Exact) : Prop := ∀ v n, ∀ output ∈ o.term? v n, output.Bounded

theorem bounded_collect {firings : List (Firing Exact)} (each : ∀ f ∈ firings, f.Bounded) :
    (collect firings).Bounded := by
  apply forall_term?_collect
  intro f hf output earlier
  exact (each f hf).join earlier

end Outputs

theorem bounded_of_fire {ctx : Context Exact} (bounded : ctx.catalog.Bounded) {rule : Rule}
    (readable : Readable rule.premise) {f : Firing Exact} (h : rule.fire ctx = .ok f) :
    f.Bounded := by
  unfold Rule.fire at h
  simp only [bind_eq_ok_iff] at h
  obtain ⟨v, hv, t, ht, y, hy, ⟨⟩⟩ := h
  exact ⟨readable.isDegree bounded hy,
    bounded v (Catalog.lookup_mem hv) t (Variable.term_mem ht)⟩

/-- Whatever is inferred from a source is between zero and one: the degree of a term, and the degree
of every number in the fuzzy set that the rules on the term have come to. The numbers of the source
have to be finite, and may come in any order. -/
theorem isDegree_infer {source : String}
    (numbers : ∀ x ∈ (parse .standard source : Parsing Exact).document.numbers,
      Scalar.isFinite x = true)
    {engine loaded : Engine Exact}
    (load : engine.load (parse .standard source).document = .ok loaded)
    {inputs : Inputs Exact} {outputs : Outputs Exact}
    (succeeds : loaded.infer inputs = .ok outputs) :
    ∀ v n output, outputs.term? v n = some output →
      (0 ≤ output.degree ∧ output.degree ≤ 1) ∧
        ∀ x, 0 ≤ output.fuzzySet.degree x ∧ output.fuzzySet.degree x ≤ 1 := by
  have readable := readableDocument_parse (α := Exact) source
  obtain ⟨rules, definitions⟩ := Engine.load_eq_ok load
  have bounded : loaded.catalog.Bounded := by
    intro v hv t ht
    rw [definitions] at hv
    apply (readable.fuzzySet v hv t ht).bounded
    intro x hx
    exact numbers x (List.mem_flatMap.2 ⟨v, hv, List.mem_flatMap.2 ⟨t, ht, hx⟩⟩)
  obtain ⟨firings, fires, rfl⟩ := Engine.infer_eq_ok_iff.1 succeeds
  have each : ∀ f ∈ firings, f.Bounded := by
    intro f hf
    obtain ⟨r, hr, fired⟩ := (mem_results_iff fires).1 hf
    rw [rules] at hr
    exact bounded_of_fire bounded (readable.premise r hr) fired
  intro v n output ho
  have output := Outputs.bounded_collect each v n output ho
  exact ⟨output.degree, output.fuzzySet⟩

/-- The peak of the triangle is not between its feet. -/
def outerPeakSource : String :=
  "DEFINE sun (TERM high TRIANGULAR(2, 0, 1)); IF NOT sun IS high THEN sun IS high;"

def outerPeakDocument : Document Exact where
  rules := [⟨.not (.is ⟨"sun", "high"⟩), ⟨"sun", "high"⟩⟩]
  definitions :=
    [⟨"sun", [⟨"high", .triangular (finite 2) (finite 0) (finite 1)⟩], by decide⟩]

section Derivation

open Grammar

theorem derivesNumber_of_read? {word : String} {q : Rat}
    (h : (Numeral.read? word).map Exact.ofNumeral = some (finite q)) :
    DerivesNumber word (finite q) := by
  obtain ⟨numeral, hn, same⟩ := Option.map_eq_some_iff.1 h
  rw [← same]
  exact .mk (ofText_of_read? hn) hn

theorem derivesTerm_high : DerivesTerm
    ["TERM", "high", "TRIANGULAR", "(", "2", ",", "0", ",", "1", ")"]
    ⟨"high", .triangular (finite 2) (finite 0) (finite 1)⟩ := by
  have two : DerivesNumber "2" (finite 2) := derivesNumber_of_read? (by decide +kernel)
  have zero : DerivesNumber "0" (finite 0) := derivesNumber_of_read? (by decide +kernel)
  have one : DerivesNumber "1" (finite 1) := derivesNumber_of_read? (by decide +kernel)
  have numbers : DerivesNumbers ["2", ",", "0", ",", "1"] [finite 2, finite 0, finite 1] :=
    ((DerivesNumbers.first two).comma (by simp) zero).comma (by simp) one
  exact .termWord (by decide +kernel)
    (.call (by decide +kernel) (.parens numbers) (.triangular _ _ _))

theorem derivesProgram_outerPeak :
    DerivesProgram (lexemes outerPeakSource.toList) outerPeakDocument.sentences := by
  have words : lexemes outerPeakSource.toList =
      ["DEFINE", "sun", "(", "TERM", "high", "TRIANGULAR", "(", "2", ",", "0", ",", "1", ")",
        ")"] ++ ";" ::
        (["IF", "NOT", "sun", "IS", "high", "THEN", "sun", "IS", "high"] ++ [";"]) := by
    rw [outerPeakSource]
    decide +kernel
  have definition : DerivesBody
      ["DEFINE", "sun", "(", "TERM", "high", "TRIANGULAR", "(", "2", ",", "0", ",", "1", ")", ")"]
      (.definition "sun" [⟨"high", .triangular (finite 2) (finite 0) (finite 1)⟩]) :=
    .define (by decide +kernel) (.last derivesTerm_high)
  have proposition : DerivesProposition ["sun", "IS", "high"] ⟨"sun", "high"⟩ :=
    .is (by decide +kernel) (by decide +kernel)
  have premise : DerivesPremise ["NOT", "sun", "IS", "high"] (some .thenWord)
      (.not (.is ⟨"sun", "high"⟩)) :=
    .single (.notWord (.is proposition) (.inl (by decide +kernel))) nofun nofun
  rw [words]
  exact .semicolon definition (.semicolon (.ifThen premise proposition) .nil)

end Derivation

theorem isDegree_infer_outer_peak :
    (∀ x ∈ (parse .standard outerPeakSource : Parsing Exact).document.numbers,
        Scalar.isFinite x = true) ∧
      ∃ loaded outputs output,
        Engine.standard.load (parse .standard outerPeakSource : Parsing Exact).document =
          .ok loaded ∧
        loaded.infer (.ofList [("sun", finite (1 / 4))]) = .ok outputs ∧
        outputs.term? "sun" "high" = some output ∧ (0 ≤ output.degree ∧ output.degree ≤ 1) ∧
        ∀ x, 0 ≤ output.fuzzySet.degree x ∧ output.fuzzySet.degree x ≤ 1 := by
  obtain ⟨-, document⟩ :=
    Parsing.toExcept_eq_ok_iff.1 (toExcept_parse_of_derives derivesProgram_outerPeak)
  have numbers : ∀ x ∈ (parse .standard outerPeakSource : Parsing Exact).document.numbers,
      Scalar.isFinite x = true := by
    rw [document]
    decide +kernel
  refine ⟨numbers, ?_⟩
  have succeeds : ∃ loaded outputs output, Engine.standard.load outerPeakDocument = .ok loaded ∧
      loaded.infer (.ofList [("sun", finite (1 / 4))]) = .ok outputs ∧
      outputs.term? "sun" "high" = some output := by
    have ends : ((Engine.standard.load outerPeakDocument).toOption.bind fun loaded =>
        (loaded.infer (.ofList [("sun", finite (1 / 4))])).toOption.bind
          (·.term? "sun" "high")).isSome = true := by decide +kernel
    obtain ⟨output, ends⟩ := Option.isSome_iff_exists.1 ends
    obtain ⟨loaded, load, ends⟩ := Option.bind_eq_some_iff.1 ends
    obtain ⟨outputs, inferred, ho⟩ := Option.bind_eq_some_iff.1 ends
    exact ⟨loaded, outputs, output, toOption_eq_some_iff.1 load,
      toOption_eq_some_iff.1 inferred, ho⟩
  rw [← document] at succeeds
  obtain ⟨loaded, outputs, output, load, inferred, ho⟩ := succeeds
  exact ⟨loaded, outputs, output, load, inferred, ho,
    isDegree_infer numbers load inferred "sun" "high" output ho⟩

end FuzzyInference
