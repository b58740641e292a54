import FuzzyInference.Proofs.Accumulation
import FuzzyInference.Proofs.ByteOrder
import FuzzyInference.Proofs.Comparison
import Mathlib.Data.List.Induction

/-!
# Outputs after additions

What outputs hold after conclusions were added to them one by one, on any variables and with any
terms, also different ones of one name.

* `Outputs.Records`: an output for every pair of names that was added, with the greatest degree and
  the greatest capped membership of the additions to it;
* `Outputs.Records.take`: one addition keeps this, `Outputs.records_collect`: so do several;
* `outputs_of_additions`: the outputs in full, with the order of the names.
-/

namespace FuzzyInference

open Scalar (least greatest)

variable {α : Type} [Scalar α]

/-! ## One pair of names -/

def measures (firings : List (Firing α)) (v n : String) (measure : Firing α → α) : Set α :=
  {y | ∃ f ∈ firings, f.On v n ∧ measure f = y}

omit [Scalar α] in
theorem measures_concat_of_on {f : Firing α} {v n : String} (on : f.On v n)
    (firings : List (Firing α)) (measure : Firing α → α) :
    measures (firings ++ [f]) v n measure = insert (measure f) (measures firings v n measure) := by
  ext y
  simp only [measures, List.mem_append, List.mem_singleton, Set.mem_ofPred_eq, Set.mem_insert_iff]
  constructor
  · rintro ⟨g, hg | rfl, h, rfl⟩
    · exact .inr ⟨g, hg, h, rfl⟩
    · exact .inl rfl
  · rintro (rfl | ⟨g, hg, h⟩)
    · exact ⟨f, .inr rfl, on, rfl⟩
    · exact ⟨g, .inl hg, h⟩

omit [Scalar α] in
theorem measures_concat_of_not_on {f : Firing α} {v n : String} (other : ¬ f.On v n)
    (firings : List (Firing α)) (measure : Firing α → α) :
    measures (firings ++ [f]) v n measure = measures firings v n measure := by
  ext y
  simp only [measures, List.mem_append, List.mem_singleton, Set.mem_ofPred_eq]
  constructor
  · rintro ⟨g, hg | rfl, h⟩
    · exact ⟨g, hg, h⟩
    · exact absurd h.1 other
  · rintro ⟨g, hg, h⟩
    exact ⟨g, .inl hg, h⟩

/-- The degree to which a number belongs to the term of an addition, but no more than the degree
that was added. -/
def Firing.capped (x : α) (f : Firing α) : α := least f.degree (f.term.fuzzySet.degree x)

/-- An output sums up the additions to a pair of names. -/
structure TermOutput.SumsUp (output : TermOutput α) (firings : List (Firing α)) (v n : String) :
    Prop where
  term : output.term = n
  degree : IsGreatest (measures firings v n (·.degree)) output.degree
  membership : ∀ x, IsGreatest (measures firings v n (·.capped x)) (output.fuzzySet.degree x)

variable [Scalar.Ordered α] {f : Firing α} {firings : List (Firing α)} {v n : String}

theorem defined_of_isGreatest {s : Set α} {y : α} (h : IsGreatest s y) : Scalar.Defined y :=
  (Scalar.Ordered.defined_of_le (h.2 h.1)).1

/-- The output of a single addition sums it up. -/
theorem TermOutput.sumsUp_ofTerm (defined : Scalar.Defined f.degree) (on : f.On v n)
    (first : ∀ g ∈ firings, ¬ g.On v n) :
    (TermOutput.ofTerm f.term f.degree).SumsUp (firings ++ [f]) v n := by
  have only (measure : Firing α → α) : measures (firings ++ [f]) v n measure = {measure f} := by
    have empty : measures firings v n measure = ∅ := by
      rw [Set.eq_empty_iff_forall_notMem]
      rintro y ⟨g, hg, on', -⟩
      exact first g hg on'
    rw [measures_concat_of_on on, empty, insert_empty_eq]
  refine ⟨on.2, ?_, fun x => ?_⟩
  · rw [only]
    exact isGreatest_single defined
  · rw [only, ofTerm, FuzzySet.degree_clip_of_defined _ defined]
    exact isGreatest_single (defined_least defined _)

/-- An output that takes in one more addition to its pair of names sums that up as well. -/
theorem TermOutput.SumsUp.merge {output : TermOutput α} (h : output.SumsUp firings v n)
    (defined : Scalar.Defined f.degree) (on : f.On v n) :
    (output.merge f.term f.degree).SumsUp (firings ++ [f]) v n := by
  refine ⟨h.term, ?_, fun x => ?_⟩
  · rw [measures_concat_of_on on]
    exact isGreatest_greatest h.degree defined
  · have clipped := FuzzySet.degree_clip_of_defined f.term.fuzzySet defined x
    rw [measures_concat_of_on on, TermOutput.merge,
      FuzzySet.degree_max_pair (defined_of_isGreatest (h.membership x)), clipped]
    exact isGreatest_greatest (h.membership x) (defined_least defined _)

omit [Scalar.Ordered α] in
/-- An addition to another pair of names leaves nothing to be summed up. -/
theorem TermOutput.SumsUp.other {output : TermOutput α} (h : output.SumsUp firings v n)
    (other : ¬ f.On v n) : output.SumsUp (firings ++ [f]) v n := by
  refine ⟨h.term, ?_, fun x => ?_⟩
  · rw [measures_concat_of_not_on other]
    exact h.degree
  · rw [measures_concat_of_not_on other]
    exact h.membership x

/-! ## All pairs -/

namespace Outputs

structure Records (o : Outputs α) (firings : List (Firing α)) : Prop where
  pair : ∀ v n, (o.term? v n).isSome ↔ ∃ f ∈ firings, f.On v n
  output : ∀ v n, ∀ output ∈ o.term? v n, output.SumsUp firings v n

omit [Scalar.Ordered α] in
theorem records_empty : (empty : Outputs α).Records [] where
  pair v n := by simp [term?_empty]
  output v n output h := by simp [term?_empty] at h

theorem Records.take {o : Outputs α} (h : o.Records firings) (defined : Scalar.Defined f.degree) :
    (o.take f).Records (firings ++ [f]) where
  pair v n := by
    rw [term?_take]
    by_cases on : f.On v n
    · simp [on]
    · simp [on, h.pair]
  output v n output ho := by
    rw [term?_take] at ho
    by_cases on : f.On v n
    · rw [if_pos on, Option.mem_some_iff] at ho
      subst ho
      cases earlier : o.term? v n with
      | none =>
        refine TermOutput.sumsUp_ofTerm defined on fun g hg on' => ?_
        have known := (h.pair v n).2 ⟨g, hg, on'⟩
        rw [earlier] at known
        cases known
      | some output => exact (h.output v n output earlier).merge defined on
    · rw [if_neg on] at ho
      exact (h.output v n output ho).other on

theorem records_collect (defined : ∀ f ∈ firings, Scalar.Defined f.degree) :
    (collect firings).Records firings := by
  induction firings using List.reverseRecOn with
  | nil => exact records_empty
  | append_singleton firings f ih =>
    have last := defined f (List.mem_append_right _ List.mem_cons_self)
    have before := ih fun g hg => defined g (List.mem_append_left _ hg)
    rw [collect, List.foldl_append]
    exact before.take last

/-! ## Names -/

omit [Scalar α] [Scalar.Ordered α] in
theorem mem_variableNames_iff {o : Outputs α} {v : String} :
    v ∈ o.variableNames ↔ (o.get? v).isSome := by
  rw [variableNames, Std.TreeMap.mem_keys, Std.TreeMap.mem_iff_isSome_getElem?]
  rfl

end Outputs

/-- The keys of a map from names come in the order of their bytes. -/
theorem keys_pairwise_utf8Bytes {β : Type} (names : Std.TreeMap String β) :
    names.keys.Pairwise fun m n => utf8Bytes m < utf8Bytes n := by
  refine Std.TreeMap.ordered_keys.imp fun less => utf8Bytes_lt ?_
  exact compare_lt_iff_lt.1 less

/-- After any additions, the outputs are on the pairs of names that were added and on no other, no
variable is without an output, and names come in the order of their bytes. An output goes by the
name it stands under. Its degree is the greatest that was added, and the degree of each number in
its fuzzy set is the greatest that the added terms, each capped at the degree it was added with,
give it. A further addition leaves all other pairs alone. -/
theorem outputs_of_additions {firings : List (Firing α)}
    (defined : ∀ f ∈ firings, Scalar.Defined f.degree) :
    (∀ v n, ((Outputs.collect firings).term? v n).isSome ↔ ∃ f ∈ firings, f.On v n) ∧
      (∀ v, v ∈ (Outputs.collect firings).variableNames ↔ ∃ f ∈ firings, f.variableName = v) ∧
      ((Outputs.collect firings).variableNames.Pairwise fun v w => utf8Bytes v < utf8Bytes w) ∧
      (∀ v terms, (Outputs.collect firings).get? v = some terms →
        terms.isEmpty = false ∧ (terms.keys.Pairwise fun m n => utf8Bytes m < utf8Bytes n) ∧
          ∀ n, n ∈ terms.keys ↔ ∃ f ∈ firings, f.On v n) ∧
      (∀ v n output, (Outputs.collect firings).term? v n = some output →
        output.term = n ∧
          IsGreatest {y | ∃ f ∈ firings, f.On v n ∧ f.degree = y} output.degree ∧
          ∀ x, IsGreatest
            {y | ∃ f ∈ firings, f.On v n ∧ least f.degree (f.term.fuzzySet.degree x) = y}
            (output.fuzzySet.degree x)) ∧
      ∀ (f : Firing α) (v n : String), ¬ f.On v n →
        ((Outputs.collect firings).take f).term? v n = (Outputs.collect firings).term? v n := by
  have records := Outputs.records_collect defined
  have known (v : String) : v ∈ (Outputs.collect firings).variableNames ↔
      ∃ f ∈ firings, f.variableName = v := by
    rw [Outputs.mem_variableNames_iff, Outputs.isSome_get?_collect]
  refine ⟨records.pair, known, keys_pairwise_utf8Bytes _, ?_, ?_, ?_⟩
  · intro v terms found
    have names (n : String) : n ∈ terms.keys ↔ ∃ f ∈ firings, f.On v n := by
      rw [← records.pair, Outputs.term?, found, Std.TreeMap.mem_keys,
        Std.TreeMap.mem_iff_isSome_getElem?]
      rfl
    refine ⟨?_, keys_pairwise_utf8Bytes terms, names⟩
    have concluded : ((Outputs.collect firings).get? v).isSome := by rw [found, Option.isSome_some]
    obtain ⟨f, hf, named⟩ := (Outputs.isSome_get?_collect firings).1 concluded
    have member := (names f.term.name).2 ⟨f, hf, named, rfl⟩
    rw [← Std.TreeMap.isEmpty_keys, List.isEmpty_eq_false_iff]
    exact List.ne_nil_of_mem member
  · intro v n output found
    have sums := records.output v n output found
    exact ⟨sums.term, sums.degree, sums.membership⟩
  · intro f v n other
    rw [Outputs.term?_take, if_neg other]

/-- Two terms of one name on a fan, and a term that has no degrees. -/
def repeatedAdditions : List (Firing Exact) :=
  [⟨"fan", ⟨"fast", .linear (.finite 0) (.finite 1)⟩, .finite (1 / 4)⟩,
    ⟨"vent", ⟨"open", .constant .undefined⟩, .negInf⟩,
    ⟨"fan", ⟨"fast", .constant (.finite 2)⟩, .finite (1 / 2)⟩]

theorem outputs_of_additions_repeated_term :
    (∀ f ∈ repeatedAdditions, Scalar.Defined f.degree) ∧
      ∃ output, (Outputs.collect repeatedAdditions).term? "fan" "fast" = some output ∧
        output.term = "fast" ∧
        IsGreatest {y | ∃ f ∈ repeatedAdditions, f.On "fan" "fast" ∧ f.degree = y} output.degree ∧
        ∀ x, IsGreatest
          {y | ∃ f ∈ repeatedAdditions, f.On "fan" "fast" ∧
            least f.degree (f.term.fuzzySet.degree x) = y} (output.fuzzySet.degree x) := by
  have defined : ∀ f ∈ repeatedAdditions, Scalar.Defined f.degree := by decide +kernel
  obtain ⟨pairs, -, -, -, outputs, -⟩ := outputs_of_additions defined
  have added : ((Outputs.collect repeatedAdditions).term? "fan" "fast").isSome :=
    (pairs "fan" "fast").2 ⟨_, List.mem_cons_self, rfl, rfl⟩
  obtain ⟨output, found⟩ := Option.isSome_iff_exists.1 added
  exact ⟨defined, output, found, outputs "fan" "fast" output found⟩

end FuzzyInference
