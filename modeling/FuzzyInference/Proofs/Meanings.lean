import FuzzyInference.Inference.Engine
import Std.Data.TreeMap.Lemmas

/-!
# What outputs mean

* `Defuzzification.defuzzifier_congr`: either method sees nothing of a fuzzy set but its degrees;
* `TermOutput.meaning`: what can be told of an output on a term;
* `Outputs.SameMeaning`: outputs on the same terms with the same meaning. They have the same best
  terms and the same crisp values.
-/

namespace FuzzyInference

theorem values_eq_map_toList {κ β : Type} [Ord κ] (t : Std.TreeMap κ β) :
    t.values = t.toList.map (·.2) := by
  have folded : t.values = t.foldr (fun _ b rest => b :: rest) [] := rfl
  rw [folded, Std.TreeMap.foldr_eq_foldr_toList]
  induction t.toList with
  | nil => rfl
  | cons entry entries ih => rw [List.foldr_cons, ih, List.map_cons]

theorem values_map {κ β γ : Type} [Ord κ] (t : Std.TreeMap κ β) (f : β → γ) :
    (t.map fun _ b => f b).values = t.values.map f := by
  rw [values_eq_map_toList, values_eq_map_toList, Std.TreeMap.toList_map, List.map_map,
    List.map_map]
  rfl

/-- What stands among the outputs on a variable is the output on some term. -/
theorem Outputs.exists_term?_of_mem_values {α : Type} {outputs : Outputs α} {v : String}
    {terms : TermOutputs α} (found : outputs.get? v = some terms) {output : TermOutput α}
    (ho : output ∈ terms.values) : ∃ n, outputs.term? v n = some output := by
  rw [values_eq_map_toList] at ho
  obtain ⟨⟨n, o⟩, member, rfl⟩ := List.mem_map.1 ho
  refine ⟨n, ?_⟩
  rw [term?, found, Option.bind_some]
  exact Std.TreeMap.mem_toList_iff_getElem?_eq_some.1 member

variable {α : Type} [Scalar α]

/-! ## Fuzzy sets with the same degrees -/

theorem centroid_congr {m m' : FuzzySet α} (same : m.degree = m'.degree) (steps : Nat) :
    centroid steps m = centroid steps m' := by
  have moments (samples : List α) : moments m samples = moments m' samples := by
    rw [FuzzyInference.moments, FuzzyInference.moments, same]
  funext range
  simp only [centroid, moments]

theorem meanOfMaximum_congr {m m' : FuzzySet α} (same : m.degree = m'.degree) (steps : Nat) :
    meanOfMaximum steps m = meanOfMaximum steps m' := by
  have peak (samples : List α) : peak m samples = peak m' samples := by
    rw [FuzzyInference.peak, FuzzyInference.peak, same]
  have samplesAt (height : α) (samples : List α) :
      samplesAt m height samples = samplesAt m' height samples := by
    rw [FuzzyInference.samplesAt, FuzzyInference.samplesAt, same]
  funext range
  simp only [meanOfMaximum, peak, samplesAt]

/-- Either method sees nothing of a fuzzy set but its degrees. -/
theorem Defuzzification.defuzzifier_congr (d : Defuzzification) {m m' : FuzzySet α}
    (same : m.degree = m'.degree) : d.defuzzifier m = d.defuzzifier m' := by
  unfold defuzzifier
  cases d.method with
  | centroid => exact centroid_congr same _
  | meanOfMaximum => exact meanOfMaximum_congr same _

/-! ## Meanings -/

/-- What can be told of an output on a term. -/
structure Meaning (α : Type) where
  term : String
  degree : α
  /-- The degree to which each number belongs to the fuzzy set. -/
  membership : α → α

def TermOutput.meaning (output : TermOutput α) : Meaning α :=
  ⟨output.term, output.degree, output.fuzzySet.degree⟩

theorem degree_max_congr {outputs outputs' : List (TermOutput α)}
    (same : outputs.map (·.meaning) = outputs'.map (·.meaning)) :
    (FuzzySet.max (outputs.map (·.fuzzySet))).degree =
      (FuzzySet.max (outputs'.map (·.fuzzySet))).degree := by
  funext x
  have degrees := congrArg (List.map fun m : Meaning α => m.membership x) same
  rw [List.map_map, List.map_map] at degrees
  rw [FuzzySet.degree, FuzzySet.degree, FuzzySet.degrees_eq_map, FuzzySet.degrees_eq_map,
    List.map_map, List.map_map]
  exact congrArg (List.foldl Scalar.greatest Scalar.negInf) degrees

theorem meaning_better {first second first' second' : TermOutput α}
    (same : first.meaning = first'.meaning) (same' : second.meaning = second'.meaning) :
    (Outputs.better first second).meaning = (Outputs.better first' second').meaning := by
  have degree : first.degree = first'.degree := congrArg Meaning.degree same
  have degree' : second.degree = second'.degree := congrArg Meaning.degree same'
  unfold Outputs.better
  rw [degree, degree']
  split
  · exact same
  · exact same'

theorem meaning_foldl_better {outputs outputs' : List (TermOutput α)} {first first' : TermOutput α}
    (same : first.meaning = first'.meaning)
    (others : outputs.map (·.meaning) = outputs'.map (·.meaning)) :
    (outputs.foldl Outputs.better first).meaning =
      (outputs'.foldl Outputs.better first').meaning := by
  induction outputs generalizing outputs' first first' with
  | nil =>
    rw [List.map_nil, eq_comm, List.map_eq_nil_iff] at others
    rw [others]
    exact same
  | cons output outputs ih =>
    rw [List.map_cons, eq_comm, List.map_eq_cons_iff] at others
    obtain ⟨output', rest, rfl, same', others⟩ := others
    rw [List.foldl_cons, List.foldl_cons]
    exact ih (meaning_better same same'.symm) others.symm

namespace Outputs

structure SameMeaning (o o' : Outputs α) : Prop where
  concluded : ∀ v, (o.get? v).isSome = (o'.get? v).isSome
  meaning : ∀ v n, (o.term? v n).map (·.meaning) = (o'.term? v n).map (·.meaning)

namespace SameMeaning

variable {o o' : Outputs α} (h : SameMeaning o o')

include h

/-- On a variable there are no outputs, or they come in the same order. -/
theorem cases (v : String) : (o.get? v = none ∧ o'.get? v = none) ∨
    ∃ terms terms', o.get? v = some terms ∧ o'.get? v = some terms' ∧ terms.keys = terms'.keys ∧
      terms.values.map (·.meaning) = terms'.values.map (·.meaning) := by
  have concluded := h.concluded v
  cases hv : o.get? v with
  | none =>
    rw [hv, eq_comm, Option.isSome_none, Option.isSome_eq_false_iff, Option.isNone_iff_eq_none]
      at concluded
    exact .inl ⟨rfl, concluded⟩
  | some terms =>
    rw [hv, eq_comm, Option.isSome_some, Option.isSome_iff_exists] at concluded
    obtain ⟨terms', hv'⟩ := concluded
    have same : (terms.map fun _ => TermOutput.meaning).Equiv
        (terms'.map fun _ => TermOutput.meaning) := by
      apply Std.TreeMap.Equiv.of_forall_constGet?_eq
      intro n
      have meaning := h.meaning v n
      rw [term?, term?, hv, hv', Option.bind_some, Option.bind_some] at meaning
      rw [Std.TreeMap.getElem?_map, Std.TreeMap.getElem?_map, meaning]
    have keys := same.keys_eq
    have values := same.values_eq
    rw [Std.TreeMap.keys_map, Std.TreeMap.keys_map] at keys
    rw [values_map, values_map] at values
    exact .inr ⟨terms, terms', rfl, hv', keys, values⟩

theorem variableNames_eq : o.variableNames = o'.variableNames := by
  have known : (o.byVariable.map fun _ _ => ()).Equiv (o'.byVariable.map fun _ _ => ()) := by
    apply Std.TreeMap.Equiv.of_forall_constGet?_eq
    intro v
    rw [Std.TreeMap.getElem?_map, Std.TreeMap.getElem?_map]
    rcases h.cases v with ⟨hv, hv'⟩ | ⟨terms, terms', hv, hv', -⟩
    · rw [get?] at hv hv'
      rw [hv, hv']
    · rw [get?] at hv hv'
      rw [hv, hv']
      rfl
  have keys := known.keys_eq
  rwa [Std.TreeMap.keys_map, Std.TreeMap.keys_map] at keys

theorem termNames_eq (v : String) : (o.get? v).map (·.keys) = (o'.get? v).map (·.keys) := by
  rcases h.cases v with ⟨hv, hv'⟩ | ⟨terms, terms', hv, hv', keys, -⟩
  · rw [hv, hv']
  · rw [hv, hv', Option.map_some, Option.map_some, keys]

/-- Outputs of one meaning have best terms of one meaning. -/
theorem best?_eq (v : String) : (o.best? v).map (·.meaning) = (o'.best? v).map (·.meaning) := by
  unfold best?
  rcases h.cases v with ⟨hv, hv'⟩ | ⟨terms, terms', hv, hv', -, values⟩
  · rw [hv, hv']
  · rw [hv, hv', Option.map_some, Option.map_some]
    cases hl : terms.values with
    | nil =>
      rw [hl, List.map_nil, eq_comm, List.map_eq_nil_iff] at values
      rw [values]
    | cons first rest =>
      rw [hl, List.map_cons, eq_comm, List.map_eq_cons_iff] at values
      obtain ⟨first', rest', hl', same, others⟩ := values
      have best := meaning_foldl_better same.symm others.symm
      have degree : (rest.foldl better first).degree = (rest'.foldl better first').degree :=
        congrArg Meaning.degree best
      rw [hl']
      simp only [degree]
      split
      · rfl
      · rw [Option.map_some, Option.map_some, best]

/-- Outputs of one meaning have the same crisp values. -/
theorem defuzzify_eq {engine : Engine α} {d : Defuzzification}
    (choice : engine.defuzzifier = d.defuzzifier) (v : String) :
    engine.defuzzify v o = engine.defuzzify v o' := by
  unfold Engine.defuzzify
  refine bind_congr fun w => ?_
  rcases h.cases v with ⟨hv, hv'⟩ | ⟨terms, terms', hv, hv', -, values⟩
  · rw [hv, hv']
  · have defuzzified := d.defuzzifier_congr (degree_max_congr values)
    rw [hv, hv', choice, Option.map_some, Option.map_some]
    cases hl : terms.values with
    | nil =>
      rw [hl, List.map_nil, eq_comm, List.map_eq_nil_iff] at values
      rw [values]
    | cons first rest =>
      rw [hl, List.map_cons, eq_comm, List.map_eq_cons_iff] at values
      obtain ⟨first', rest', hl', -, -⟩ := values
      rw [hl, hl'] at defuzzified
      simp only [hl', defuzzified]

end SameMeaning

end Outputs

end FuzzyInference
