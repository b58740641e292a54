import FuzzyInference.Inference.Engine
import Mathlib.Data.List.Forall2

/-!
# What the rules of an engine conclude

* `Engine.load_eq_ok`: an engine takes a document over as it is;
* `Firing`: that a variable belongs to a term to some degree;
* `Rule.fire`: what a rule concludes. `Engine.infer_eq`: a pass collects what all of them do;
* `Outputs.get?_take`, `Outputs.term?_take`: what one more conclusion changes;
* `Outputs.isSome_get?_collect`, `Outputs.term?_collect`: the outputs of a whole pass, from the
  conclusions on each term. `Outputs.forall_term?_collect`: what every conclusion keeps.
-/

namespace FuzzyInference

section Except

variable {ε β γ : Type}

theorem bind_eq_ok_iff {x : Except ε β} {f : β → Except ε γ} {c : γ} :
    x >>= f = .ok c ↔ ∃ b, x = .ok b ∧ f b = .ok c := by
  cases x with
  | error e =>
    constructor
    · intro h
      cases h
    · rintro ⟨b, h, -⟩
      cases h
  | ok b =>
    constructor
    · intro h
      exact ⟨b, rfl, h⟩
    · rintro ⟨b, ⟨⟩, h⟩
      exact h

theorem toOption_eq_some_iff {x : Except ε β} {b : β} : x.toOption = some b ↔ x = .ok b := by
  cases x <;> simp [Except.toOption]

theorem map_eq_ok_iff {x : Except ε β} {f : β → γ} {c : γ} :
    f <$> x = .ok c ↔ ∃ b, x = .ok b ∧ f b = c := by
  rw [map_eq_pure_bind, bind_eq_ok_iff]
  refine exists_congr fun b => and_congr_right fun _ => ⟨?_, ?_⟩
  · intro h
    cases h
    rfl
  · rintro rfl
    rfl

/-- A computation along a list succeeds if each element has its result. -/
theorem mapM_eq_ok_iff {f : β → Except ε γ} {bs : List β} {cs : List γ} :
    bs.mapM f = .ok cs ↔ List.Forall₂ (fun b c => f b = .ok c) bs cs := by
  induction bs generalizing cs with
  | nil =>
    rw [List.mapM_nil, List.forall₂_nil_left_iff]
    constructor
    · intro h
      cases h
      rfl
    · rintro rfl
      rfl
  | cons b bs ih =>
    rw [List.mapM_cons, List.forall₂_cons_left_iff, bind_eq_ok_iff]
    simp only [bind_eq_ok_iff, ih]
    constructor
    · rintro ⟨c, first, others, rest, ⟨⟩⟩
      exact ⟨c, others, first, rest, rfl⟩
    · rintro ⟨c, others, first, rest, rfl⟩
      exact ⟨c, first, others, rest, rfl⟩

/-- A list has results if and only if none of its elements fails. -/
theorem exists_results_iff {f : β → Except ε γ} {bs : List β} :
    (∃ cs, List.Forall₂ (fun b c => f b = .ok c) bs cs) ↔ ∀ b ∈ bs, ∃ c, f b = .ok c := by
  induction bs with
  | nil =>
    constructor
    · intro _ b hb
      cases hb
    · intro _
      exact ⟨[], .nil⟩
  | cons b bs ih =>
    rw [List.forall_mem_cons, ← ih]
    constructor
    · rintro ⟨cs, h⟩
      cases h with
      | cons first others => exact ⟨⟨_, first⟩, _, others⟩
    · rintro ⟨⟨c, first⟩, cs, others⟩
      exact ⟨c :: cs, .cons first others⟩

theorem mem_results_iff {f : β → Except ε γ} {bs : List β} {cs : List γ}
    (h : List.Forall₂ (fun b c => f b = .ok c) bs cs) {c : γ} :
    c ∈ cs ↔ ∃ b ∈ bs, f b = .ok c := by
  induction h with
  | nil => simp
  | cons first _ ih =>
    rw [List.mem_cons, ih, List.exists_mem_cons_iff, first, Except.ok.injEq, eq_comm]

end Except

variable {α : Type}

/-! ## Variables and terms -/

/-- What is looked up is there. -/
theorem Catalog.lookup_mem {c : Catalog α} {name : String} {v : Variable α}
    (h : c.lookup name = .ok v) : v ∈ c.entries := by
  unfold lookup at h
  cases found : c.find? name with
  | some u =>
    rw [found] at h
    cases h
    obtain ⟨key, -, entry⟩ := Option.bind_eq_some_iff.1 found
    exact List.mem_of_getElem? entry
  | none =>
    rw [found] at h
    cases h

theorem Variable.term_mem {v : Variable α} {name : String} {t : Term α}
    (h : v.term name = .ok t) : t ∈ v.terms := by
  unfold term at h
  cases found : v.terms.find? (·.name = name) with
  | some u =>
    rw [found] at h
    cases h
    exact List.mem_of_find?_eq_some found
  | none =>
    rw [found] at h
    cases h

theorem Catalog.entries_foldlM_add {definitions : List (Variable α)}
    {before after : Catalog α}
    (h : definitions.foldlM (fun c v => (c.add v).map (·.1)) before = .ok after) :
    after.entries = before.entries ++ definitions := by
  induction definitions generalizing before with
  | nil =>
    cases h
    rw [List.append_nil]
  | cons v definitions ih =>
    rw [List.foldlM_cons, bind_eq_ok_iff] at h
    obtain ⟨next, added, others⟩ := h
    obtain ⟨⟨c, key⟩, added, rfl⟩ := map_eq_ok_iff.1 added
    unfold add at added
    split at added
    · cases added
      rw [ih others, List.append_assoc, List.singleton_append]
    · cases added

/-- A document that can be loaded is taken over as it is. -/
theorem Engine.load_eq_ok {engine loaded : Engine α} {d : Document α}
    (h : engine.load d = .ok loaded) :
    loaded.rules = d.rules ∧ loaded.catalog.entries = d.definitions := by
  obtain ⟨_, defined, rfl⟩ := map_eq_ok_iff.1 h
  obtain ⟨catalog, added, rfl⟩ := map_eq_ok_iff.1 defined
  exact ⟨rfl, Catalog.entries_foldlM_add added⟩

/-! ## Conclusions -/

/-- That a variable belongs to a term to some degree. -/
structure Firing (α : Type) where
  variableName : String
  term : Term α
  degree : α

variable [Scalar α]

def Rule.fire (ctx : Context α) (rule : Rule) : Except LookupError (Firing α) := do
  let v ← ctx.lookup rule.conclusion.variableName
  let t ← v.term rule.conclusion.term
  let degree ← rule.premise.degree ctx
  pure ⟨rule.conclusion.variableName, t, degree⟩

namespace Outputs

def take (outputs : Outputs α) (f : Firing α) : Outputs α :=
  outputs.add f.variableName f.term f.degree

def collect (firings : List (Firing α)) : Outputs α := firings.foldl take empty

end Outputs

namespace Engine

variable {ctx : Context α}

theorem applyRule_eq (outputs : Outputs α) (rule : Rule) :
    applyRule ctx outputs rule = outputs.take <$> rule.fire ctx := by
  simp [applyRule, Rule.fire, Outputs.take]

theorem foldlM_applyRule (rules : List Rule) (outputs : Outputs α) :
    rules.foldlM (applyRule ctx) outputs =
      (·.foldl .take outputs) <$> rules.mapM (Rule.fire ctx) := by
  induction rules generalizing outputs with
  | nil => simp
  | cons rule rules ih =>
    rw [List.foldlM_cons, applyRule_eq, List.mapM_cons]
    simp [ih]

/-- A pass over the rules collects what each of them concludes. -/
theorem infer_eq (engine : Engine α) (inputs : Inputs α) :
    engine.infer inputs =
      Outputs.collect <$> engine.rules.mapM (Rule.fire ⟨engine.catalog, inputs⟩) :=
  foldlM_applyRule _ _

theorem infer_eq_ok_iff {engine : Engine α} {inputs : Inputs α} {outputs : Outputs α} :
    engine.infer inputs = .ok outputs ↔
      ∃ firings, List.Forall₂ (fun r f => Rule.fire ⟨engine.catalog, inputs⟩ r = .ok f)
        engine.rules firings ∧ Outputs.collect firings = outputs := by
  rw [infer_eq, map_eq_ok_iff]
  simp only [mapM_eq_ok_iff]

end Engine

/-! ## Outputs -/

def Firing.On (v n : String) (f : Firing α) : Prop := f.variableName = v ∧ f.term.name = n

instance (v n : String) (f : Firing α) : Decidable (f.On v n) := inferInstanceAs (Decidable (_ ∧ _))

/-- The output on a term with one more conclusion on it. -/
def Firing.join (f : Firing α) : Option (TermOutput α) → TermOutput α
  | some earlier => earlier.merge f.term f.degree
  | none => .ofTerm f.term f.degree

namespace Outputs

variable {outputs : Outputs α} {f : Firing α} {v n : String}

theorem get?_take : (outputs.take f).get? v =
    if f.variableName = v then
      some (((outputs.get? v).getD ∅).insert f.term.name (f.join (outputs.term? v f.term.name)))
    else outputs.get? v := by
  simp only [get?, take, add, term?, Std.TreeMap.getElem?_insert,
    Std.LawfulEqCmp.compare_eq_iff_eq, Std.TreeMap.getD_eq_getD_getElem?]
  by_cases same : f.variableName = v
  · rw [if_pos same, if_pos same, same]
    cases outputs.byVariable[v]? with
    | none => simp [Firing.join]
    | some terms =>
      simp only [Option.getD_some, Option.bind_some]
      cases terms[f.term.name]? with
      | none => rfl
      | some earlier => rfl
  · rw [if_neg same, if_neg same]

theorem term?_take : (outputs.take f).term? v n =
    if f.On v n then some (f.join (outputs.term? v n)) else outputs.term? v n := by
  rw [term?, get?_take]
  by_cases same : f.variableName = v
  · rw [if_pos same, Option.bind_some, Std.TreeMap.getElem?_insert]
    simp only [Std.LawfulEqCmp.compare_eq_iff_eq]
    by_cases name : f.term.name = n
    · rw [if_pos name, if_pos ⟨same, name⟩, name]
    · rw [if_neg name, if_neg fun h => name h.2, term?]
      cases outputs.get? v with
      | none => simp
      | some terms => rfl
  · rw [if_neg same, if_neg fun h => same h.1, term?]

omit [Scalar α] in
theorem get?_empty (v : String) : (empty : Outputs α).get? v = none := by
  simp [get?, empty]

omit [Scalar α] in
theorem term?_empty (v n : String) : (empty : Outputs α).term? v n = none := by
  rw [term?, get?_empty, Option.bind_none]

theorem isSome_get?_foldl_take (firings : List (Firing α)) :
    ((firings.foldl take outputs).get? v).isSome ↔
      (outputs.get? v).isSome ∨ ∃ f ∈ firings, f.variableName = v := by
  induction firings generalizing outputs with
  | nil => simp
  | cons f firings ih =>
    rw [List.foldl_cons, ih, get?_take]
    by_cases same : f.variableName = v
    · simp [same]
    · simp [same]

/-- A variable has outputs if something is concluded on it. -/
theorem isSome_get?_collect (firings : List (Firing α)) :
    ((collect firings).get? v).isSome ↔ ∃ f ∈ firings, f.variableName = v := by
  rw [collect, isSome_get?_foldl_take, get?_empty]
  simp

theorem term?_foldl_take (firings : List (Firing α)) :
    (firings.foldl take outputs).term? v n =
      (firings.filter (·.On v n)).foldl (fun output f => some (f.join output))
        (outputs.term? v n) := by
  induction firings generalizing outputs with
  | nil => rfl
  | cons f firings ih =>
    rw [List.foldl_cons, ih, term?_take]
    by_cases on : f.On v n
    · rw [if_pos on, List.filter_cons_of_pos (by simpa using on), List.foldl_cons]
    · rw [if_neg on, List.filter_cons_of_neg (by simpa using on)]

/-- The output on a term comes of the conclusions on it alone. -/
theorem term?_collect (firings : List (Firing α)) :
    (collect firings).term? v n =
      (firings.filter (·.On v n)).foldl (fun output f => some (f.join output)) none := by
  rw [collect, term?_foldl_take, term?_empty]

/-- Whatever one more conclusion keeps, whether it is the first one on its term or not, holds of all
outputs. -/
theorem forall_term?_collect {P : String → String → TermOutput α → Prop}
    {firings : List (Firing α)}
    (step : ∀ f ∈ firings, ∀ output : Option (TermOutput α),
      (∀ o ∈ output, P f.variableName f.term.name o) →
        P f.variableName f.term.name (f.join output)) :
    ∀ v n, ∀ output ∈ (collect firings).term? v n, P v n output := by
  intro v n
  rw [term?_collect]
  apply List.foldlRecOn (firings.filter (·.On v n)) _
    (motive := fun output => ∀ o ∈ output, P v n o)
  · nofun
  · intro output before f hf
    obtain ⟨member, on⟩ := List.mem_filter.1 hf
    obtain ⟨rfl, rfl⟩ : f.On v n := by simpa using on
    rintro _ ⟨⟩
    exact step f member output before

end Outputs

end FuzzyInference
