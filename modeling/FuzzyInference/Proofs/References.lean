import FuzzyInference.Proofs.Accumulation
import Mathlib.Data.List.Nodup

/-!
# References

Rules refer to variables, terms and inputs by name.

* `Reference`: a name that has to stand for something; `Reference.Resolves`: it does;
* `Engine.references`: all of them, in the order they are looked up in;
* `failure?_degree`, `failure?_fire`: a premise and a rule fail as the first of their references
  that does not resolve;
* `infer_fails_iff_unresolved`: so does a pass over all rules.
-/

namespace FuzzyInference

/-! ## The first failure -/

section Except

variable {ε β γ : Type}

def failure? : Except ε β → Option ε
  | .error e => some e
  | .ok _ => none

theorem failure?_eq_some_iff {x : Except ε β} {e : ε} : failure? x = some e ↔ x = .error e := by
  cases x <;> simp [failure?]

theorem failure?_eq_none_iff {x : Except ε β} : failure? x = none ↔ ∃ b, x = .ok b := by
  cases x <;> simp [failure?]

/-- Of two computations one behind the other the first failure counts, where the second one fails
alike on every value. -/
theorem failure?_bind {x : Except ε β} {f : β → Except ε γ} {second : Option ε}
    (alike : ∀ b, x = .ok b → failure? (f b) = second) :
    failure? (x >>= f) = (failure? x).or second := by
  cases x with
  | error e => rfl
  | ok b => exact alike b rfl

theorem failure?_map (x : Except ε β) (f : β → γ) : failure? (f <$> x) = failure? x := by
  cases x <;> rfl

theorem failure?_mapM (f : β → Except ε γ) (bs : List β) :
    failure? (bs.mapM f) = bs.findSome? fun b => failure? (f b) := by
  induction bs with
  | nil => rfl
  | cons b bs ih =>
    have others (c : γ) (_ : f b = .ok c) :
        failure? (bs.mapM f >>= fun cs => pure (c :: cs)) = failure? (bs.mapM f) := by
      rw [bind_pure_comp, failure?_map]
    rw [List.mapM_cons, failure?_bind others, ih, List.findSome?_cons]
    cases failure? (f b) <;> rfl

theorem findSome?_flatMap (f : γ → Option ε) (g : β → List γ) (bs : List β) :
    (bs.flatMap g).findSome? f = bs.findSome? fun b => (g b).findSome? f := by
  induction bs with
  | nil => rfl
  | cons b bs ih =>
    rw [List.flatMap_cons, List.findSome?_append, ih, List.findSome?_cons]
    cases (g b).findSome? f <;> rfl

end Except

/-! ## What is there -/

variable {α : Type}

theorem Catalog.lookup_eq_ok_iff {c : Catalog α} {name : String} {v : Variable α} :
    c.lookup name = .ok v ↔ v ∈ c.entries ∧ v.name = name := by
  have found : c.lookup name = .ok v ↔ c.find? name = some v := by
    unfold lookup
    cases c.find? name <;> simp
  rw [found, find?, key?]
  constructor
  · intro h
    obtain ⟨key, hk, entry⟩ := Option.bind_eq_some_iff.1 h
    obtain ⟨i, hi, rfl⟩ := Option.map_eq_some_iff.1 hk
    obtain ⟨bound, named, -⟩ := List.findIdx?_eq_some_iff_getElem.1 hi
    rw [ entry?, List.getElem?_eq_getElem bound, Option.some.injEq] at entry
    rw [← entry]
    exact ⟨List.getElem_mem bound, by simpa using named⟩
  · rintro ⟨member, named⟩
    cases hi : c.entries.findIdx? (·.name = name) with
    | none =>
      have other := List.findIdx?_eq_none_iff.1 hi v member
      simp [named] at other
    | some i =>
      obtain ⟨bound, same, -⟩ := List.findIdx?_eq_some_iff_getElem.1 hi
      -- No two entries share a name, so the one that is found is `v`.
      have entry : c.entries[i] = v := by
        apply List.inj_on_of_nodup_map c.distinct (List.getElem_mem bound) member
        rw [named]
        simpa using same
      simp [ entry?, entry, bound]

theorem Catalog.failure?_lookup (c : Catalog α) (name : String) :
    failure? (c.lookup name) =
      if ∃ v ∈ c.entries, v.name = name then none else some (.undefinedVariable name) := by
  split
  · next h =>
    obtain ⟨v, member, named⟩ := h
    exact failure?_eq_none_iff.2 ⟨v, lookup_eq_ok_iff.2 ⟨member, named⟩⟩
  · next h =>
    rw [failure?_eq_some_iff]
    cases hl : c.lookup name with
    | ok v => exact absurd ⟨v, lookup_eq_ok_iff.1 hl⟩ h
    | error e =>
      unfold lookup at hl
      split at hl <;> cases hl
      rfl

theorem Variable.failure?_term (v : Variable α) (name : String) :
    failure? (v.term name) =
      if ∃ t ∈ v.terms, t.name = name then none else some (.undefinedTerm v.name name) := by
  unfold term
  cases found : v.terms.find? (·.name = name) with
  | some t =>
    have named : t.name = name := by simpa using List.find?_some found
    rw [if_pos ⟨t, List.mem_of_find?_eq_some found, named⟩]
    rfl
  | none =>
    rw [if_neg]
    · rfl
    · rintro ⟨t, member, named⟩
      exact List.find?_eq_none.1 found t member (by simpa using named)

theorem Variable.term_eq_ok_iff {v : Variable α} {name : String} {t : Term α} :
    v.term name = .ok t ↔ t ∈ v.terms ∧ t.name = name := by
  have found : v.term name = .ok t ↔ v.terms.find? (·.name = name) = some t := by
    unfold term
    cases v.terms.find? (·.name = name) <;> simp
  rw [found]
  constructor
  · intro h
    exact ⟨List.mem_of_find?_eq_some h, by simpa using List.find?_some h⟩
  · rintro ⟨member, named⟩
    cases h : v.terms.find? (·.name = name) with
    | none => exact absurd (by simpa using named) (List.find?_eq_none.1 h t member)
    | some u =>
      -- No two terms share a name, so the one that is found is `t`.
      have same : u = t := by
        apply List.inj_on_of_nodup_map v.distinct (List.mem_of_find?_eq_some h) member
        rw [named]
        simpa using List.find?_some h
      rw [same]

theorem Variable.term_eq_error_iff {v : Variable α} {name : String} {e : LookupError} :
    v.term name = .error e ↔ name ∉ v.terms.map (·.name) ∧ e = .undefinedTerm v.name name := by
  rw [← failure?_eq_some_iff, failure?_term, List.mem_map]
  split
  · next present => simp only [present, not_true, false_and, reduceCtorEq]
  · next missing =>
    rw [Option.some.injEq, eq_comm]
    exact (and_iff_right missing).symm

theorem Context.failure?_input (ctx : Context α) (variableName : String) :
    failure? (ctx.input variableName) =
      if (ctx.inputs.get? variableName).isSome then none
      else some (.missingInput variableName) := by
  unfold input
  cases ctx.inputs.get? variableName <;> rfl

/-! ## References -/

/-- A name that has to stand for something. -/
inductive Reference where
  | toVariable (name : String)
  | toTerm (variableName term : String)
  | toInput (variableName : String)
  deriving DecidableEq, Repr

namespace Reference

def Resolves (ctx : Context α) : Reference → Prop
  | toVariable name => ∃ v ∈ ctx.catalog.entries, v.name = name
  | toTerm variableName term =>
    ∃ v ∈ ctx.catalog.entries, v.name = variableName ∧ ∃ t ∈ v.terms, t.name = term
  | toInput variableName => (ctx.inputs.get? variableName).isSome

instance (ctx : Context α) : (r : Reference) → Decidable (r.Resolves ctx)
  | toVariable _ => inferInstanceAs (Decidable (∃ _ ∈ _, _))
  | toTerm _ _ => inferInstanceAs (Decidable (∃ _ ∈ _, _ ∧ ∃ _ ∈ _, _))
  | toInput _ => inferInstanceAs (Decidable (_ = true))

/-- How a look-up fails when the name stands for nothing. -/
def error : Reference → LookupError
  | toVariable name => .undefinedVariable name
  | toTerm variableName term => .undefinedTerm variableName term
  | toInput variableName => .missingInput variableName

def failure? (ctx : Context α) (r : Reference) : Option LookupError :=
  if r.Resolves ctx then none else some r.error

theorem failure?_eq_none_iff {ctx : Context α} {r : Reference} :
    r.failure? ctx = none ↔ r.Resolves ctx := by
  simp [failure?]

theorem failure?_eq_some_iff {ctx : Context α} {r : Reference} {e : LookupError} :
    r.failure? ctx = some e ↔ ¬ r.Resolves ctx ∧ e = r.error := by
  by_cases h : r.Resolves ctx
  · simp [failure?, h]
  · simp [failure?, h, eq_comm]

end Reference

/-- The references of a proposition: the variable, its term, and the input of the variable. -/
def Proposition.references (p : Proposition) : List Reference :=
  [.toVariable p.variableName, .toTerm p.variableName p.term, .toInput p.variableName]

/-- The references of a rule: those of the conclusion, which needs no input, and those of the
propositions of the premise from left to right. -/
def Rule.references (r : Rule) : List Reference :=
  [.toVariable r.conclusion.variableName, .toTerm r.conclusion.variableName r.conclusion.term] ++
    r.premise.propositions.flatMap Proposition.references

/-- The references of all rules, in the order the rules stand in. -/
def Engine.references (engine : Engine α) : List Reference := engine.rules.flatMap Rule.references

/-! ## Look-ups and references -/

variable {ctx : Context α}

theorem failure?_toVariable (name : String) :
    failure? (ctx.lookup name) = (Reference.toVariable name).failure? ctx :=
  ctx.catalog.failure?_lookup name

/-- The term is looked up in the one variable of that name. -/
theorem failure?_toTerm {name : String} {v : Variable α} (found : ctx.lookup name = .ok v)
    (term : String) :
    failure? (v.term term) = (Reference.toTerm name term).failure? ctx := by
  obtain ⟨member, named⟩ := Catalog.lookup_eq_ok_iff.1 found
  have resolves : (Reference.toTerm name term).Resolves ctx ↔ ∃ t ∈ v.terms, t.name = term := by
    constructor
    · rintro ⟨w, member', named', h⟩
      obtain rfl : w = v := by
        apply List.inj_on_of_nodup_map ctx.catalog.distinct member' member
        rw [named, named']
      exact h
    · intro h
      exact ⟨v, member, named, h⟩
  rw [Variable.failure?_term, Reference.failure?, Reference.error, named]
  simp only [resolves]

theorem failure?_toInput (name : String) :
    failure? (ctx.input name) = (Reference.toInput name).failure? ctx :=
  ctx.failure?_input name

/-- Before anything is done with a term, its variable is looked up, and then the term. -/
theorem failure?_lookups {β : Type} (name term : String)
    {f : Variable α → Term α → Except LookupError β}
    {others : Option LookupError} (alike : ∀ v t, failure? (f v t) = others) :
    failure? (ctx.lookup name >>= fun v => v.term term >>= f v) =
      ([Reference.toVariable name, .toTerm name term].findSome? (·.failure? ctx)).or others := by
  have behind (v : Variable α) (found : ctx.lookup name = .ok v) :
      failure? (v.term term >>= f v) = ((Reference.toTerm name term).failure? ctx).or others := by
    rw [failure?_bind fun t _ => alike v t, failure?_toTerm found]
  rw [failure?_bind behind, failure?_toVariable, ← Option.or_assoc, List.findSome?_cons,
    List.findSome?_singleton]
  cases (Reference.toVariable name).failure? ctx <;> rfl

variable [Scalar α]

theorem Proposition.failure?_degree (p : Proposition) :
    failure? (p.degree ctx) = p.references.findSome? (·.failure? ctx) := by
  have value (v : Variable α) (t : Term α) :
      failure? (ctx.input p.variableName >>= fun x => pure (t.fuzzySet.degree x)) =
        [Reference.toInput p.variableName].findSome? (·.failure? ctx) := by
    rw [bind_pure_comp, failure?_map, failure?_toInput, List.findSome?_singleton]
  rw [degree, failure?_lookups _ _ value, ← List.findSome?_append]
  rfl

/-! ## Premises -/

namespace Premise

theorem degrees_cons (p : Premise) (ps : List Premise) :
    degrees ctx (p :: ps) = p.degree ctx >>= fun y => (y :: ·) <$> degrees ctx ps := by
  simp [degrees]

mutual

/-- Every operand is evaluated, whatever the degrees of those before it. -/
theorem failure?_degree (ctx : Context α) : (p : Premise) →
    failure? (p.degree ctx) =
      (p.propositions.flatMap Proposition.references).findSome? (·.failure? ctx)
  | .is p => by
    rw [degree, propositions, p.failure?_degree, List.flatMap_singleton]
  | .all ps => by
    rw [degree, propositions]
    exact (failure?_map _ _).trans (failure?_degrees ctx ps)
  | .any ps => by
    rw [degree, propositions]
    exact (failure?_map _ _).trans (failure?_degrees ctx ps)
  | .not p => by
    rw [degree, propositions]
    exact (failure?_map _ _).trans (failure?_degree ctx p)

theorem failure?_degrees (ctx : Context α) : (ps : List Premise) →
    failure? (degrees ctx ps) =
      ((propositionsOfList ps).flatMap Proposition.references).findSome? (·.failure? ctx)
  | [] => by
    rw [degrees, propositionsOfList]
    rfl
  | p :: ps => by
    have others (y : α) (_ : p.degree ctx = .ok y) :
        failure? ((y :: ·) <$> degrees ctx ps) = failure? (degrees ctx ps) := failure?_map _ _
    rw [degrees_cons, failure?_bind others, failure?_degree ctx p, failure?_degrees ctx ps,
      propositionsOfList, List.flatMap_append, List.findSome?_append]

end

end Premise

/-! ## Rules -/

/-- A rule fails as the first of its references that does not resolve. -/
theorem Rule.failure?_fire (r : Rule) :
    failure? (r.fire ctx) = r.references.findSome? (·.failure? ctx) := by
  have premise (v : Variable α) (t : Term α) :
      failure? (r.premise.degree ctx >>= fun y => pure (Firing.mk r.conclusion.variableName t y)) =
        (r.premise.propositions.flatMap Proposition.references).findSome? (·.failure? ctx) := by
    rw [bind_pure_comp, failure?_map, Premise.failure?_degree]
  rw [fire, failure?_lookups _ _ premise, ← List.findSome?_append]
  rfl

theorem Engine.failure?_infer (engine : Engine α) (inputs : Inputs α) :
    failure? (engine.infer inputs) =
      engine.references.findSome? (·.failure? ⟨engine.catalog, inputs⟩) := by
  rw [infer_eq, failure?_map, failure?_mapM, references, findSome?_flatMap]
  simp only [Rule.failure?_fire]

/-- A pass fails if some reference does not resolve, wherever it stands, and then with the error of
the first such one. Nothing but the error is left of it. -/
theorem infer_fails_iff_unresolved (engine : Engine α) (inputs : Inputs α) :
    ((∃ e, engine.infer inputs = .error e) ↔
        ∃ r ∈ engine.references, ¬ r.Resolves ⟨engine.catalog, inputs⟩) ∧
      ∀ e, engine.infer inputs = .error e ↔
        ∃ before r after, engine.references = before ++ r :: after ∧
          (∀ q ∈ before, q.Resolves ⟨engine.catalog, inputs⟩) ∧
          ¬ r.Resolves ⟨engine.catalog, inputs⟩ ∧ e = r.error := by
  constructor
  · have succeeds : (∀ r ∈ engine.references, r.Resolves ⟨engine.catalog, inputs⟩) ↔
        failure? (engine.infer inputs) = none := by
      rw [engine.failure?_infer, List.findSome?_eq_none_iff]
      simp only [Reference.failure?_eq_none_iff]
    have fails : (∃ e, engine.infer inputs = .error e) ↔
        ¬ failure? (engine.infer inputs) = none := by
      cases engine.infer inputs <;> simp [failure?]
    rw [fails, ← succeeds]
    simp only [not_forall, exists_prop]
  · intro e
    rw [← failure?_eq_some_iff, engine.failure?_infer, List.findSome?_eq_some_iff]
    simp only [Reference.failure?_eq_none_iff, Reference.failure?_eq_some_iff]
    constructor
    · rintro ⟨before, r, after, all, ⟨unresolved, rfl⟩, resolved⟩
      exact ⟨before, r, after, all, resolved, unresolved, rfl⟩
    · rintro ⟨before, r, after, all, resolved, unresolved, rfl⟩
      exact ⟨before, r, after, all, ⟨unresolved, rfl⟩, resolved⟩

end FuzzyInference
