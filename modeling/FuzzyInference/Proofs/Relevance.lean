import FuzzyInference.Number.Exact
import FuzzyInference.Proofs.Catalogs
import FuzzyInference.Proofs.References

/-!
# What a pass depends on

A rule looks up the variables its premise and its conclusion name, and the inputs of those in the
premise. Nothing else of an engine or of the inputs has any bearing on what is concluded.

* `Catalog.AgreeOn`: two catalogs hold the same variable of a name, or both of them none, wherever
  it stands in them; `Catalog.agreeOn_iff`: the look-ups of that name come out alike;
* `Context.AgreeOn`: so do the look-ups of the input;
* `Premise.degree_congr`: the degree of a premise depends on the variables it names;
* `Rule.fire_congr`: so does what a rule concludes;
* `infer_congr_of_agreeOn`: and a whole pass, outputs and errors alike.
-/

namespace FuzzyInference

variable {α : Type}

/-! ## Catalogs -/

/-- The same variable goes by the name in both catalogs, or none does. -/
def Catalog.AgreeOn (c c' : Catalog α) (name : String) : Prop :=
  ∀ v, v.name = name → (v ∈ c.entries ↔ v ∈ c'.entries)

theorem Catalog.AgreeOn.symm {c c' : Catalog α} {name : String} (agree : c.AgreeOn c' name) :
    c'.AgreeOn c name := by
  intro v named
  exact (agree v named).symm

theorem Catalog.AgreeOn.lookup_eq_ok {c c' : Catalog α} {name : String} {v : Variable α}
    (agree : c.AgreeOn c' name) (found : c.lookup name = .ok v) : c'.lookup name = .ok v := by
  obtain ⟨member, named⟩ := lookup_eq_ok_iff.1 found
  apply lookup_eq_ok_iff.2
  exact ⟨(agree v named).1 member, named⟩

/-- Neither where a variable stands nor what else the catalog holds makes a difference to its
look-up. -/
theorem Catalog.agreeOn_iff {c c' : Catalog α} {name : String} :
    c.AgreeOn c' name ↔ c.lookup name = c'.lookup name := by
  constructor
  · intro agree
    cases found : c.lookup name with
    | ok v => exact (agree.lookup_eq_ok found).symm
    | error e =>
      cases found' : c'.lookup name with
      | ok v =>
        have both := agree.symm.lookup_eq_ok found'
        rw [found] at both
        cases both
      | error e' => rw [lookup_eq_error found, lookup_eq_error found']
  · intro same v named
    have member (c : Catalog α) : v ∈ c.entries ↔ c.lookup name = .ok v := by
      rw [lookup_eq_ok_iff]
      simp only [named, and_true]
    rw [member, member, same]

/-! ## Premises -/

/-- The contexts have the same variable of a name and the same input for it, or lack the same. -/
structure Context.AgreeOn (ctx ctx' : Context α) (name : String) : Prop where
  catalog : ctx.catalog.AgreeOn ctx'.catalog name
  inputs : ctx.inputs.get? name = ctx'.inputs.get? name

namespace Context.AgreeOn

variable {ctx ctx' : Context α} {name : String}

theorem lookup_eq (agree : ctx.AgreeOn ctx' name) : ctx.lookup name = ctx'.lookup name :=
  Catalog.agreeOn_iff.1 agree.catalog

theorem input_eq (agree : ctx.AgreeOn ctx' name) : ctx.input name = ctx'.input name := by
  unfold input
  rw [agree.inputs]

end Context.AgreeOn

variable [Scalar α] {ctx ctx' : Context α}

theorem Proposition.degree_congr {p : Proposition} (agree : ctx.AgreeOn ctx' p.variableName) :
    p.degree ctx = p.degree ctx' := by
  unfold degree
  rw [agree.lookup_eq, agree.input_eq]

namespace Premise

mutual

/-- The degree of a premise depends on the variables that its propositions name. -/
theorem degree_congr : (p : Premise) →
    (∀ q ∈ p.propositions, ctx.AgreeOn ctx' q.variableName) → p.degree ctx = p.degree ctx'
  | .is q, agree => by
    rw [degree, degree]
    apply q.degree_congr
    apply agree
    simp only [propositions, List.mem_singleton]
  | .all ps, agree => by
    rw [degree, degree, degrees_congr ps agree]
  | .any ps, agree => by
    rw [degree, degree, degrees_congr ps agree]
  | .not p, agree => by
    rw [degree, degree, degree_congr p agree]

theorem degrees_congr : (ps : List Premise) →
    (∀ q ∈ propositionsOfList ps, ctx.AgreeOn ctx' q.variableName) →
    degrees ctx ps = degrees ctx' ps
  | [], _ => by
    rw [degrees, degrees]
  | p :: ps, agree => by
    simp only [propositionsOfList, List.mem_append] at agree
    have first : p.degree ctx = p.degree ctx' := by
      apply degree_congr p
      intro q hq
      exact agree q (.inl hq)
    have others : degrees ctx ps = degrees ctx' ps := by
      apply degrees_congr ps
      intro q hq
      exact agree q (.inr hq)
    rw [degrees_cons, degrees_cons, first, others]

end

end Premise

/-! ## Rules -/

theorem mapM_congr_left {ε β γ : Type} {f g : β → Except ε γ} {bs : List β}
    (same : ∀ b ∈ bs, f b = g b) : bs.mapM f = bs.mapM g := by
  induction bs with
  | nil => rfl
  | cons b bs ih =>
    have others : bs.mapM f = bs.mapM g := by
      apply ih
      intro c hc
      exact same c (List.mem_cons_of_mem _ hc)
    rw [List.mapM_cons, List.mapM_cons, same b List.mem_cons_self, others]

/-- The conclusion is looked up as well, yet needs no input. -/
theorem Rule.fire_congr {r : Rule}
    (conclusion : ctx.catalog.AgreeOn ctx'.catalog r.conclusion.variableName)
    (premise : ∀ q ∈ r.premise.propositions, ctx.AgreeOn ctx' q.variableName) :
    r.fire ctx = r.fire ctx' := by
  have found : ctx.lookup r.conclusion.variableName = ctx'.lookup r.conclusion.variableName :=
    Catalog.agreeOn_iff.1 conclusion
  unfold fire
  rw [found, Premise.degree_congr r.premise premise]

/-- Two engines with the same rules come to identical outputs, or fail with the identical error, if
their catalogs agree on the variables that the rules name and the inputs agree on those that the
premises name. Where a variable stands in a catalog, what other variables there are, what other
inputs are given and how the engines defuzzify does not matter. -/
theorem infer_congr_of_agreeOn {rules : List Rule} {catalog catalog' : Catalog α}
    {inputs inputs' : Inputs α} (defuzzifier defuzzifier' : Defuzzifier α)
    (definitions : ∀ r ∈ rules, ∀ p ∈ r.conclusion :: r.premise.propositions,
      catalog.AgreeOn catalog' p.variableName)
    (values : ∀ r ∈ rules, ∀ p ∈ r.premise.propositions,
      inputs.get? p.variableName = inputs'.get? p.variableName) :
    (Engine.mk rules catalog defuzzifier).infer inputs =
      (Engine.mk rules catalog' defuzzifier').infer inputs' := by
  have fires : ∀ r ∈ rules, r.fire ⟨catalog, inputs⟩ = r.fire ⟨catalog', inputs'⟩ := by
    intro r hr
    have conclusion := definitions r hr r.conclusion List.mem_cons_self
    have premise : ∀ q ∈ r.premise.propositions,
        Context.AgreeOn ⟨catalog, inputs⟩ ⟨catalog', inputs'⟩ q.variableName := by
      intro q hq
      have definition := definitions r hr q (List.mem_cons_of_mem _ hq)
      exact ⟨definition, values r hr q hq⟩
    exact Rule.fire_congr conclusion premise
  rw [Engine.infer_eq, Engine.infer_eq]
  apply congrArg
  exact mapM_congr_left fires

def moon : Variable Exact := ⟨"moon", [⟨"full", .linear (.finite 0) (.finite 1)⟩], by decide⟩

def lamp : Variable Exact := ⟨"lamp", [⟨"dim", .linear (.finite 0) (.finite 1)⟩], by decide⟩

def moonAndLamp : Catalog Exact := ⟨[moon, lamp], by decide⟩

/-- The lamp and the moon in the other order, with one more variable between them. -/
def lampAndMoon : Catalog Exact := ⟨[lamp, ⟨"tide", [], by decide⟩, moon], by decide⟩

def dimsWithoutMoon : Rule := ⟨.not (.is ⟨"moon", "full"⟩), ⟨"lamp", "dim"⟩⟩

def quarterMoon : Inputs Exact := .ofList [("moon", .finite (1 / 4))]

/-- The input of the lamp is never read. -/
theorem infer_congr_of_agreeOn_unread_input :
    (∀ r ∈ [dimsWithoutMoon], ∀ p ∈ r.conclusion :: r.premise.propositions,
        moonAndLamp.AgreeOn lampAndMoon p.variableName) ∧
      (∀ r ∈ [dimsWithoutMoon], ∀ p ∈ r.premise.propositions,
        quarterMoon.get? p.variableName = (quarterMoon.insert "lamp" 1).get? p.variableName) ∧
      ∀ d d', (Engine.mk [dimsWithoutMoon] moonAndLamp d).infer quarterMoon =
        (Engine.mk [dimsWithoutMoon] lampAndMoon d').infer (quarterMoon.insert "lamp" 1) := by
  have definitions : ∀ r ∈ [dimsWithoutMoon], ∀ p ∈ r.conclusion :: r.premise.propositions,
      moonAndLamp.AgreeOn lampAndMoon p.variableName := by
    intro r hr p hp
    obtain rfl := List.mem_singleton.1 hr
    rw [Catalog.agreeOn_iff]
    rcases List.mem_cons.1 hp with rfl | hp
    · rfl
    · obtain rfl := List.mem_singleton.1 hp
      rfl
  have values : ∀ r ∈ [dimsWithoutMoon], ∀ p ∈ r.premise.propositions,
      quarterMoon.get? p.variableName = (quarterMoon.insert "lamp" 1).get? p.variableName := by
    intro r hr p hp
    obtain rfl := List.mem_singleton.1 hr
    obtain rfl := List.mem_singleton.1 hp
    have other : compare "lamp" "moon" ≠ .eq := by decide
    exact (Std.TreeMap.getElem?_insert.trans (if_neg other)).symm
  refine ⟨definitions, values, ?_⟩
  intro d d'
  exact infer_congr_of_agreeOn d d' definitions values

end FuzzyInference
