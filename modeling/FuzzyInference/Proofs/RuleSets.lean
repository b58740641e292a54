import FuzzyInference.Proofs.Accumulation
import FuzzyInference.Proofs.ExactOrder
import FuzzyInference.Proofs.Meanings

/-!
# Rules in any order

In exact arithmetic.

* `Firing.membership`: what one conclusion says of each number;
* `meaning_collect`: what several conclusions on a term say together;
* `sameMeaning_collect`: neither their order counts nor how often each of them is drawn;
* `infer_congr_rules`: the same goes for the rules of an engine.
-/

namespace FuzzyInference

/-! ## Conclusions -/

open Scalar (greatest least)

open Exact (undefined)

/-- The degree to which a number belongs to the term of the conclusion, capped at its degree. -/
def Firing.membership (f : Firing Exact) (x : Exact) : Exact :=
  (f.term.fuzzySet.clip f.degree).degree x

theorem FuzzySet.degree_clip (m : FuzzySet Exact) (degree x : Exact) :
    (m.clip degree).degree x = least (least Scalar.posInf degree) (m.degree x) := by
  rw [clip, FuzzySet.degree]
  rfl

theorem Firing.membership_defined (f : Firing Exact) (x : Exact) : f.membership x ≠ undefined := by
  rw [membership, FuzzySet.degree_clip]
  apply Exact.least_defined
  apply Exact.least_defined
  nofun

/-- One more conclusion raises each degree in the output to that of the conclusion, if it was lower.
-/
theorem TermOutput.degree_merge (output : TermOutput Exact) (f : Firing Exact) {x : Exact}
    (defined : output.fuzzySet.degree x ≠ undefined) :
    (output.merge f.term f.degree).fuzzySet.degree x =
      greatest (output.fuzzySet.degree x) (f.membership x) := by
  have maximum : (output.merge f.term f.degree).fuzzySet.degree x =
      greatest (greatest Scalar.negInf (output.fuzzySet.degree x)) (f.membership x) := by
    rw [merge, FuzzySet.degree]
    rfl
  rw [maximum]
  exact congrArg (greatest · _) (Exact.greatest_negInf_left defined)

def Meaning.ofFirings (term : String) (firings : List (Firing Exact)) : Meaning Exact where
  term := term
  degree := (firings.map (·.degree)).foldl greatest undefined
  membership x := (firings.map (·.membership x)).foldl greatest undefined

/-- Further conclusions on a term raise the degrees in the output that it has. -/
theorem foldl_join_some (firings : List (Firing Exact)) {earlier : TermOutput Exact}
    (defined : ∀ x, earlier.fuzzySet.degree x ≠ undefined) :
    ∃ output, firings.foldl (fun output f => some (f.join output)) (some earlier) = some output ∧
      output.term = earlier.term ∧
      output.degree = (firings.map (·.degree)).foldl greatest earlier.degree ∧
      ∀ x, output.fuzzySet.degree x =
        (firings.map (·.membership x)).foldl greatest (earlier.fuzzySet.degree x) := by
  induction firings generalizing earlier with
  | nil => exact ⟨earlier, rfl, rfl, rfl, fun _ => rfl⟩
  | cons f firings ih =>
    have merged (x : Exact) := earlier.degree_merge f (defined x)
    have defined' (x : Exact) : (earlier.merge f.term f.degree).fuzzySet.degree x ≠ undefined := by
      rw [merged]
      exact Exact.greatest_defined (f.membership_defined x)
    obtain ⟨output, joined, term, degree, membership⟩ := ih defined'
    refine ⟨output, joined, term, degree, fun x => ?_⟩
    rw [membership, merged]
    rfl

/-- All that is concluded on a term counts, and nothing else does. -/
theorem meaning_collect (firings : List (Firing Exact)) (v n : String) :
    ((Outputs.collect firings).term? v n).map (·.meaning) =
      if firings.filter (·.On v n) = [] then none
      else some (.ofFirings n (firings.filter (·.On v n))) := by
  rw [Outputs.term?_collect]
  have on : ∀ f ∈ firings.filter (·.On v n), f.term.name = n := by
    intro f hf
    have h : f.On v n := by simpa using List.of_mem_filter hf
    exact h.2
  generalize firings.filter (·.On v n) = fs at on
  cases fs with
  | nil => rfl
  | cons f fs =>
    have defined (x : Exact) : (TermOutput.ofTerm f.term f.degree).fuzzySet.degree x ≠ undefined :=
      f.membership_defined x
    obtain ⟨output, joined, term, degree, membership⟩ := foldl_join_some fs defined
    have joined : (f :: fs).foldl (fun output f => some (f.join output)) none = some output :=
      joined
    have term : output.term = n := term.trans (on f List.mem_cons_self)
    have degree : output.degree = ((f :: fs).map (·.degree)).foldl greatest undefined := by
      rw [degree, List.map_cons, List.foldl_cons, Exact.greatest_undefined_left]
      rfl
    have membership : output.fuzzySet.degree =
        fun x => ((f :: fs).map (·.membership x)).foldl greatest undefined := by
      funext x
      rw [membership, List.map_cons, List.foldl_cons, Exact.greatest_undefined_left]
      rfl
    rw [if_neg (List.cons_ne_nil _ _), joined, Option.map_some, TermOutput.meaning, term, degree,
      membership]
    rfl

theorem ofFirings_congr {firings firings' : List (Firing Exact)}
    (same : ∀ f, f ∈ firings ↔ f ∈ firings') (n : String) :
    Meaning.ofFirings n firings = .ofFirings n firings' := by
  have mapped (g : Firing Exact → Exact) :
      (firings.map g).foldl greatest undefined = (firings'.map g).foldl greatest undefined := by
    apply Exact.foldl_greatest_congr
    intro y
    simp only [List.mem_map, same]
  simp only [Meaning.ofFirings, mapped]

/-- Neither the order of the conclusions counts nor how often each of them is drawn. -/
theorem sameMeaning_collect {firings firings' : List (Firing Exact)}
    (same : ∀ f, f ∈ firings ↔ f ∈ firings') :
    (Outputs.collect firings).SameMeaning (Outputs.collect firings') where
  concluded v := by
    rw [Bool.eq_iff_iff, Outputs.isSome_get?_collect, Outputs.isSome_get?_collect]
    simp only [same]
  meaning v n := by
    have on (f : Firing Exact) :
        f ∈ firings.filter (·.On v n) ↔ f ∈ firings'.filter (·.On v n) := by
      rw [List.mem_filter, List.mem_filter, same]
    have empty : firings.filter (·.On v n) = [] ↔ firings'.filter (·.On v n) = [] := by
      rw [List.eq_nil_iff_forall_not_mem, List.eq_nil_iff_forall_not_mem]
      simp only [on]
    rw [meaning_collect, meaning_collect, ofFirings_congr on]
    simp only [empty]

/-! ## Rules -/

/-- Two engines with the same variables and the same rules, in whatever order and however often each
of them comes, apply their rules with the same success. Their outputs are on the same variables and
terms, with the same meaning and the same best terms, and have the same crisp values. -/
theorem infer_congr_rules {rules rules' : List Rule} (same : ∀ r, r ∈ rules ↔ r ∈ rules')
    (catalog : Catalog Exact) (d : Defuzzification) (inputs : Inputs Exact) :
    ((∃ o, (Engine.mk rules catalog d.defuzzifier).infer inputs = .ok o) ↔
        ∃ o, (Engine.mk rules' catalog d.defuzzifier).infer inputs = .ok o) ∧
      ∀ o o', (Engine.mk rules catalog d.defuzzifier).infer inputs = .ok o →
        (Engine.mk rules' catalog d.defuzzifier).infer inputs = .ok o' →
        o.variableNames = o'.variableNames ∧
          (∀ v, (o.get? v).map (·.keys) = (o'.get? v).map (·.keys)) ∧
          (∀ v n, (o.term? v n).map (·.meaning) = (o'.term? v n).map (·.meaning)) ∧
          (∀ v, (o.best? v).map (·.meaning) = (o'.best? v).map (·.meaning)) ∧
          ∀ v, (Engine.mk rules catalog d.defuzzifier).defuzzify v o =
            (Engine.mk rules' catalog d.defuzzifier).defuzzify v o' := by
  simp only [Engine.infer_eq_ok_iff]
  constructor
  · have succeeds (rules : List Rule) :
        (∃ o firings,
          List.Forall₂ (fun r f => Rule.fire ⟨catalog, inputs⟩ r = .ok f) rules firings ∧
            Outputs.collect firings = o) ↔
          ∀ r ∈ rules, ∃ f, Rule.fire ⟨catalog, inputs⟩ r = .ok f := by
      rw [← exists_results_iff, exists_comm]
      simp
    rw [succeeds, succeeds]
    simp only [same]
  · rintro o o' ⟨firings, fires, rfl⟩ ⟨firings', fires', rfl⟩
    have conclusions (f : Firing Exact) : f ∈ firings ↔ f ∈ firings' := by
      rw [mem_results_iff fires, mem_results_iff fires']
      simp only [same]
    have meanings := sameMeaning_collect conclusions
    have crisp (v : String) :=
      @meanings.defuzzify_eq _ _ _ _ ⟨rules, catalog, d.defuzzifier⟩ d rfl v
    exact ⟨meanings.variableNames_eq, meanings.termNames_eq, meanings.meaning, meanings.best?_eq,
      crisp⟩

/-- The rules over one variable with one term. -/
def sunEngine (rules : List Rule) : Engine Exact where
  rules := rules
  catalog := ⟨[⟨"sun", [⟨"up", .linear (.finite 0) (.finite 1)⟩], by decide⟩], by decide⟩
  defuzzifier := Defuzzification.defuzzifier ⟨.centroid, 10⟩

def sunRises : Rule := ⟨.is ⟨"sun", "up"⟩, ⟨"sun", "up"⟩⟩

def sunSets : Rule := ⟨.not (.is ⟨"sun", "up"⟩), ⟨"sun", "up"⟩⟩

def dawn : Inputs Exact := .ofList [("sun", .finite (1 / 4))]

theorem infer_congr_rules_reordered :
    (∀ r, r ∈ [sunRises, sunSets] ↔ r ∈ [sunSets, sunRises, sunSets]) ∧
      ∃ o o', (sunEngine [sunRises, sunSets]).infer dawn = .ok o ∧
        (sunEngine [sunSets, sunRises, sunSets]).infer dawn = .ok o' ∧
        o.variableNames = o'.variableNames ∧
        (∀ v, (o.get? v).map (·.keys) = (o'.get? v).map (·.keys)) ∧
        (∀ v n, (o.term? v n).map (·.meaning) = (o'.term? v n).map (·.meaning)) ∧
        (∀ v, (o.best? v).map (·.meaning) = (o'.best? v).map (·.meaning)) ∧
        ∀ v, (sunEngine [sunRises, sunSets]).defuzzify v o =
          (sunEngine [sunSets, sunRises, sunSets]).defuzzify v o' := by
  have same (r : Rule) : r ∈ [sunRises, sunSets] ↔ r ∈ [sunSets, sunRises, sunSets] := by
    simp only [List.mem_cons, List.not_mem_nil, or_false]
    tauto
  have succeeds : ((sunEngine [sunRises, sunSets]).infer dawn).isOk = true := by decide +kernel
  have congr := infer_congr_rules same (sunEngine []).catalog ⟨.centroid, 10⟩ dawn
  cases h : (sunEngine [sunRises, sunSets]).infer dawn with
  | error e =>
    rw [h] at succeeds
    cases succeeds
  | ok o =>
    obtain ⟨o', h'⟩ := congr.1.1 ⟨o, h⟩
    exact ⟨same, o, o', rfl, h', congr.2 o o' h h'⟩

end FuzzyInference
