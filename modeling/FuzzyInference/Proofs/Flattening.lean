import FuzzyInference.Inference.Context
import FuzzyInference.Proofs.Comparison
import Mathlib.Data.List.Basic

/-!
# Flat premises and nested ones

* `Picks`: how a minimum or a maximum picks one of two scalars. `Picks.foldl_append` splits what is
  picked of a list;
* `Premise.degree_and`, `Premise.degree_or`: a flat node has the degree of the node of two operands,
  and fails as it does;
* `PremiseTree`: premises with two operands to each `AND` and `OR`, and both the flat and the nested
  premise of such a tree;
* `PremiseTree.degree_flat`, `PremiseTree.propositions_flat`: the two mean the same.
-/

namespace FuzzyInference

open Scalar (Defined least greatest posInf negInf)

variable {α : Type} [Scalar α]

/-! ## Picking one of several scalars -/

/-- `pick` takes the first of two scalars, unless the second one is defined and is not preceded by
the first. Nothing comes behind `last`. -/
structure Picks (pick : α → α → α) (precedes : α → α → Prop) (last : α) : Prop where
  first : ∀ {a b}, precedes a b ∨ ¬ Defined b → pick a b = a
  second : ∀ {a b}, ¬ precedes a b → Defined b → pick a b = b
  defined : ∀ {a b}, precedes a b → Defined a ∧ Defined b
  trans : ∀ {a b c}, precedes a b → precedes b c → precedes a c
  total : ∀ {a b}, Defined a → Defined b → precedes a b ∨ precedes b a
  last_eq : ∀ {a}, precedes last a → last = a
  defined_last : Defined last

theorem undefined_iff {a : α} : ¬ Defined a ↔ (a != a) = true := by
  rw [Defined, bne, Bool.not_eq_true, Bool.not_eq_true']

theorem picks_least [Scalar.Ordered α] (top : Defined (posInf : α)) :
    Picks (α := α) least (· ≤ ·) posInf where
  first h := by
    rw [undefined_iff] at h
    rw [least, if_pos]
    simpa using h
  second h defined := by
    rw [least, if_neg]
    rw [← not_not (a := Defined _), undefined_iff] at defined
    simp [h, defined]
  defined := Scalar.Ordered.defined_of_le
  trans := Scalar.Ordered.le_trans
  total := Scalar.Ordered.le_total
  last_eq := Scalar.Ordered.eq_posInf
  defined_last := top

theorem picks_greatest [Scalar.Ordered α] (bottom : Defined (negInf : α)) :
    Picks (α := α) greatest (fun a b => b ≤ a) negInf where
  first h := by
    rw [undefined_iff] at h
    rw [greatest, if_pos]
    simpa using h
  second h defined := by
    rw [greatest, if_neg]
    rw [← not_not (a := Defined _), undefined_iff] at defined
    simp [h, defined]
  defined h := (Scalar.Ordered.defined_of_le h).symm
  trans h k := Scalar.Ordered.le_trans k h
  total ha hb := (Scalar.Ordered.le_total ha hb).symm
  last_eq := Scalar.Ordered.eq_negInf
  defined_last := bottom

namespace Picks

variable {pick : α → α → α} {precedes : α → α → Prop} {last a b c : α}

theorem defined_pick (h : Picks pick precedes last) (ha : Defined a) (b : α) :
    Defined (pick a b) := by
  by_cases hb : precedes a b ∨ ¬ Defined b
  · rw [h.first hb]
    exact ha
  · rw [not_or, not_not] at hb
    rw [h.second hb.1 hb.2]
    exact hb.2

/-- Of three scalars the same one is picked however they are grouped, since ties go to the first. -/
theorem pick_assoc (h : Picks pick precedes last) (a b c : α) :
    pick (pick a b) c = pick a (pick b c) := by
  by_cases hc : Defined c
  · by_cases hb : Defined b
    · by_cases ab : precedes a b
      · rw [h.first (.inl ab)]
        by_cases bc : precedes b c
        · rw [h.first (.inl bc), h.first (.inl ab), h.first (.inl (h.trans ab bc))]
        · rw [h.second bc hc]
      · rw [h.second ab hb]
        by_cases bc : precedes b c
        · rw [h.first (.inl bc), h.second ab hb]
        · have cb : precedes c b := (h.total hb hc).resolve_left bc
          have ac : ¬ precedes a c := fun ac => ab (h.trans ac cb)
          rw [h.second bc hc, h.second ac hc]
    · have bc : ¬ precedes b c := fun bc => hb (h.defined bc).1
      rw [h.first (.inr hb), h.second bc hc]
  · rw [h.first (.inr hc), h.first (b := c) (.inr hc)]

theorem last_pick (h : Picks pick precedes last) (ha : Defined a) : pick last a = a := by
  by_cases la : precedes last a
  · rw [h.first (.inl la), h.last_eq la]
  · exact h.second la ha

theorem pick_last (h : Picks pick precedes last) (ha : Defined a) : pick a last = a := by
  rcases h.total ha h.defined_last with al | la
  · exact h.first (.inl al)
  · rw [← h.last_eq la, h.last_pick h.defined_last]

theorem defined_foldl (h : Picks pick precedes last) (xs : List α) :
    Defined (xs.foldl pick last) := by
  apply List.foldlRecOn (motive := Defined) xs pick h.defined_last
  intro a ha b _
  exact h.defined_pick ha b

/-- What is picked of two lists is picked of what was picked of each of them. -/
theorem foldl_append (h : Picks pick precedes last) (xs ys : List α) :
    (xs ++ ys).foldl pick last = pick (xs.foldl pick last) (ys.foldl pick last) := by
  have : Std.Associative pick := ⟨h.pick_assoc⟩
  calc (xs ++ ys).foldl pick last
    _ = ys.foldl pick (xs.foldl pick last) := List.foldl_append
    _ = ys.foldl pick (pick (xs.foldl pick last) last) := by rw [h.pick_last (h.defined_foldl xs)]
    _ = pick (xs.foldl pick last) (ys.foldl pick last) := List.foldl_assoc

end Picks

/-! ## Degrees of flat premises -/

namespace Premise

variable {pick : α → α → α} {precedes : α → α → Prop} {last : α} {ctx : Context α}

theorem degrees_append (ctx : Context α) (ps qs : List Premise) :
    degrees ctx (ps ++ qs) = (do
      let xs ← degrees ctx ps
      let ys ← degrees ctx qs
      pure (xs ++ ys)) := by
  simp only [degrees_eq_mapM, List.mapM_append]

/-- What `pick` picks of the degrees of some premises, unless one of them fails. -/
def pickDegree (pick : α → α → α) (last : α) (ctx : Context α) (ps : List Premise) :
    Except LookupError α :=
  (degrees ctx ps).map (·.foldl pick last)

theorem degree_all (ctx : Context α) (ps : List Premise) :
    (Premise.all ps).degree ctx = pickDegree Scalar.least posInf ctx ps := by
  rw [degree, pickDegree]

theorem degree_any (ctx : Context α) (ps : List Premise) :
    (Premise.any ps).degree ctx = pickDegree Scalar.greatest negInf ctx ps := by
  rw [degree, pickDegree]

/-- The first failure of all the premises is the one of the first part that fails. -/
theorem pickDegree_append (h : Picks pick precedes last) (ctx : Context α) (ps qs : List Premise) :
    pickDegree pick last ctx (ps ++ qs) = (do
      let x ← pickDegree pick last ctx ps
      let y ← pickDegree pick last ctx qs
      pure (pick x y)) := by
  unfold pickDegree
  rw [degrees_append]
  cases degrees ctx ps with
  | error e => rfl
  | ok xs =>
    cases degrees ctx qs with
    | error e => rfl
    | ok ys => exact congrArg Except.ok (h.foldl_append xs ys)

/-- Nothing changes when what was picked of the operands of one premise is picked once more. -/
theorem pickDegree_nested (h : Picks pick precedes last) {p : Premise} {ps : List Premise}
    (hp : p.degree ctx = pickDegree pick last ctx ps) :
    pickDegree pick last ctx [p] = pickDegree pick last ctx ps := by
  have single : pickDegree pick last ctx [p] = (p.degree ctx).map (pick last) := by
    unfold pickDegree
    rw [degrees]
    cases p.degree ctx <;> rfl
  rw [single, hp, pickDegree]
  cases degrees ctx ps with
  | error e => rfl
  | ok xs => exact congrArg Except.ok (h.last_pick (h.defined_foldl xs))

/-- Two lists of operands can be put together before anything is picked of them. -/
theorem pickDegree_pair (h : Picks pick precedes last) {a b : Premise} {ps qs : List Premise}
    (ha : pickDegree pick last ctx ps = pickDegree pick last ctx [a])
    (hb : pickDegree pick last ctx qs = pickDegree pick last ctx [b]) :
    pickDegree pick last ctx (ps ++ qs) = pickDegree pick last ctx [a, b] := by
  have pair := pickDegree_append h ctx [a] [b]
  rw [pickDegree_append h, ha, hb, ← pair]
  rfl

variable [Scalar.Ordered α]

theorem degree_and (top : Defined (posInf : α)) (ctx : Context α) (a b : Premise) :
    (a.and b).degree ctx = (Premise.all [a, b]).degree ctx := by
  have conjuncts (p : Premise) :
      pickDegree least posInf ctx p.conjuncts = pickDegree least posInf ctx [p] := by
    cases p with
    | all ps => exact (pickDegree_nested (picks_least top) (degree_all ctx ps)).symm
    | is | any | not => rfl
  rw [Premise.and, degree_all, degree_all]
  exact pickDegree_pair (picks_least top) (conjuncts a) (conjuncts b)

theorem degree_or (bottom : Defined (negInf : α)) (ctx : Context α) (a b : Premise) :
    (a.or b).degree ctx = (Premise.any [a, b]).degree ctx := by
  have disjuncts (p : Premise) :
      pickDegree greatest negInf ctx p.disjuncts = pickDegree greatest negInf ctx [p] := by
    cases p with
    | any ps => exact (pickDegree_nested (picks_greatest bottom) (degree_any ctx ps)).symm
    | is | all | not => rfl
  rw [Premise.or, degree_any, degree_any]
  exact pickDegree_pair (picks_greatest bottom) (disjuncts a) (disjuncts b)

omit [Scalar.Ordered α] in
/-- The degree of a conjunction depends on nothing of its operands but their degrees. -/
theorem degree_all_congr {a a' b b' : Premise} (ha : a.degree ctx = a'.degree ctx)
    (hb : b.degree ctx = b'.degree ctx) :
    (Premise.all [a, b]).degree ctx = (Premise.all [a', b']).degree ctx := by
  simp only [degree, degrees, ha, hb]

omit [Scalar.Ordered α] in
theorem degree_any_congr {a a' b b' : Premise} (ha : a.degree ctx = a'.degree ctx)
    (hb : b.degree ctx = b'.degree ctx) :
    (Premise.any [a, b]).degree ctx = (Premise.any [a', b']).degree ctx := by
  simp only [degree, degrees, ha, hb]

/-! ## Propositions and shape of flat premises -/

theorem propositionsOfList_append (ps qs : List Premise) :
    propositionsOfList (ps ++ qs) = propositionsOfList ps ++ propositionsOfList qs := by
  simp only [propositionsOfList_eq_flatMap, List.flatMap_append]

theorem propositionsOfList_conjuncts (p : Premise) :
    propositionsOfList p.conjuncts = p.propositions := by
  cases p <;> simp [conjuncts, propositionsOfList, propositions]

theorem propositionsOfList_disjuncts (p : Premise) :
    propositionsOfList p.disjuncts = p.propositions := by
  cases p <;> simp [disjuncts, propositionsOfList, propositions]

theorem propositions_and (a b : Premise) :
    (a.and b).propositions = a.propositions ++ b.propositions := by
  rw [Premise.and, propositions, propositionsOfList_append, propositionsOfList_conjuncts,
    propositionsOfList_conjuncts]

theorem propositions_or (a b : Premise) :
    (a.or b).propositions = a.propositions ++ b.propositions := by
  rw [Premise.or, propositions, propositionsOfList_append, propositionsOfList_disjuncts,
    propositionsOfList_disjuncts]

theorem and_assoc (a b c : Premise) : (a.and b).and c = a.and (b.and c) :=
  congrArg Premise.all (List.append_assoc _ _ _)

theorem or_assoc (a b c : Premise) : (a.or b).or c = a.or (b.or c) :=
  congrArg Premise.any (List.append_assoc _ _ _)

end Premise

/-! ## Premises of two operands each -/

/-- A premise as it is written. Every `AND` and every `OR` has two operands. -/
inductive PremiseTree where
  | is (proposition : Proposition)
  | and (left right : PremiseTree)
  | or (left right : PremiseTree)
  | not (operand : PremiseTree)

namespace PremiseTree

/-- The premise in which conjunctions of conjunctions are flat, and so are disjunctions of
disjunctions. -/
def flat : PremiseTree → Premise
  | is p => .is p
  | and l r => l.flat.and r.flat
  | or l r => l.flat.or r.flat
  | not t => .not t.flat

/-- The premise with all nodes of the tree. -/
def nested : PremiseTree → Premise
  | is p => .is p
  | and l r => .all [l.nested, r.nested]
  | or l r => .any [l.nested, r.nested]
  | not t => .not t.nested

def leaves : PremiseTree → List Proposition
  | is p => [p]
  | and l r => l.leaves ++ r.leaves
  | or l r => l.leaves ++ r.leaves
  | not t => t.leaves

theorem propositions_flat (t : PremiseTree) : t.flat.propositions = t.leaves := by
  induction t with
  | is p => rfl
  | and l r hl hr => rw [flat, Premise.propositions_and, hl, hr, leaves]
  | or l r hl hr => rw [flat, Premise.propositions_or, hl, hr, leaves]
  | not t ih => rw [flat, Premise.propositions, ih, leaves]

/-- Flattening changes no degree and no failure. -/
theorem degree_flat [Scalar.Ordered α] (top : Defined (posInf : α)) (bottom : Defined (negInf : α))
    (ctx : Context α) (t : PremiseTree) : t.flat.degree ctx = t.nested.degree ctx := by
  induction t with
  | is p => rfl
  | and l r hl hr =>
    rw [flat, nested, Premise.degree_and top]
    exact Premise.degree_all_congr hl hr
  | or l r hl hr =>
    rw [flat, nested, Premise.degree_or bottom]
    exact Premise.degree_any_congr hl hr
  | not t ih => rw [flat, nested, Premise.degree, Premise.degree, ih]

end PremiseTree

end FuzzyInference
