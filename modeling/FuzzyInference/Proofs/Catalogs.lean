import FuzzyInference.Catalog
import Mathlib.Data.List.Nodup

/-!
# Lists of variables as catalogs

* `Catalog.of`: what is left of several additions, accepted or refused;
* `Catalog.foldlM_add_succeeds_iff`, `Catalog.foldlM_add_eq_error_iff`: a list of variables goes in
  as a whole, or the first one whose name is taken ends it.
-/

namespace FuzzyInference

namespace Catalog

variable {α : Type} {c : Catalog α} {v : Variable α}

theorem nodup_names (c : Catalog α) : c.names.Nodup := c.distinct

theorem add_taken (taken : v.name ∈ c.names) : c.add v = .error ⟨v.name⟩ :=
  dif_neg (not_not_intro taken)

theorem add_free (free : v.name ∉ c.names) :
    c.add v = .ok (⟨c.entries ++ [v], c.nodup_names_concat free⟩, ⟨c.size⟩) :=
  dif_pos free

theorem lookup_eq_error {name : String} {e : LookupError} (h : c.lookup name = .error e) :
    e = .undefinedVariable name := by
  unfold lookup at h
  split at h
  · cases h
  · cases h
    rfl

/-- The catalog with one more variable, or as it was if the name is taken. -/
def next (c : Catalog α) (v : Variable α) : Catalog α :=
  match c.add v with
  | .ok (next, _) => next
  | .error _ => c

/-- Additions to an empty catalog, one after the other, accepted or refused. -/
def of (vs : List (Variable α)) : Catalog α := vs.foldl next empty

/-- A list of variables can be added if no name is taken and none comes twice. -/
theorem foldlM_add_succeeds_iff {vs : List (Variable α)} :
    (∃ d, vs.foldlM (fun c v => (c.add v).map (·.1)) c = .ok d) ↔
      (c.names ++ vs.map (·.name)).Nodup := by
  induction vs generalizing c with
  | nil => simpa [pure, Except.pure] using c.nodup_names
  | cons v vs ih =>
    rw [List.foldlM_cons, List.map_cons]
    by_cases taken : v.name ∈ c.names
    · rw [add_taken taken]
      constructor
      · rintro ⟨d, h⟩
        cases h
      · intro distinct
        have apart := List.disjoint_of_nodup_append distinct
        exact absurd List.mem_cons_self (apart taken)
    · rw [add_free taken]
      refine Iff.trans ih ?_
      rw [names, List.map_append, List.append_assoc]
      rfl

/-- Adding a list of variables fails at the first one whose name is taken. -/
theorem foldlM_add_eq_error_iff {vs : List (Variable α)} {e : DuplicateVariable} :
    vs.foldlM (fun c v => (c.add v).map (·.1)) c = .error e ↔
      ∃ before v behind, vs = before ++ v :: behind ∧
        (c.names ++ before.map (·.name)).Nodup ∧ v.name ∈ c.names ++ before.map (·.name) ∧
        e = ⟨v.name⟩ := by
  induction vs generalizing c with
  | nil =>
    constructor
    · intro h
      cases h
    · rintro ⟨before, v, behind, h, -⟩
      simp at h
  | cons w vs ih =>
    rw [List.foldlM_cons]
    by_cases taken : w.name ∈ c.names
    · rw [add_taken taken]
      constructor
      · intro h
        cases h
        exact ⟨[], w, vs, rfl, by simpa using c.nodup_names, by simpa using taken, rfl⟩
      · rintro ⟨before, v, behind, parts, distinct, -, rfl⟩
        cases before with
        | nil =>
          obtain ⟨rfl, -⟩ := List.cons.inj parts
          rfl
        | cons u before =>
          obtain ⟨rfl, -⟩ := List.cons.inj parts
          have apart := List.disjoint_of_nodup_append distinct
          exact absurd List.mem_cons_self (apart taken)
    · rw [add_free taken]
      refine Iff.trans ih ?_
      have names (before : List (Variable α)) :
          (⟨c.entries ++ [w], c.nodup_names_concat taken⟩ : Catalog α).names ++
            before.map (·.name) = c.names ++ (w :: before).map (·.name) := by
        simp [Catalog.names]
      simp only [names]
      constructor
      · rintro ⟨before, v, behind, rfl, distinct, member, rfl⟩
        exact ⟨w :: before, v, behind, rfl, distinct, member, rfl⟩
      · rintro ⟨before, v, behind, parts, distinct, member, rfl⟩
        cases before with
        | nil =>
          obtain ⟨rfl, -⟩ := List.cons.inj parts
          simp [taken] at member
        | cons u before =>
          obtain ⟨rfl, rfl⟩ := List.cons.inj parts
          exact ⟨before, v, behind, rfl, distinct, member, rfl⟩

end Catalog

end FuzzyInference
