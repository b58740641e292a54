/-!
# Premises

The condition of a rule: propositions `variable IS term`, joined and negated.

* `Premise`: the trees, with conjunctions and disjunctions of any number of operands;
* `Premise.and`, `Premise.or`: join two premises into one flat node;
* `Premise.all?`, `Premise.any?`: join a list of premises, which must not be empty;
* `Premise.propositions`: the propositions of a premise, from left to right.
-/

namespace FuzzyInference

/-- That a variable belongs to one of its terms. -/
structure Proposition where
  variableName : String
  term : String
  deriving DecidableEq, Repr

def Proposition.text (p : Proposition) : String :=
  p.variableName ++ " IS " ++ p.term

inductive Premise where
  | is (proposition : Proposition)
  | all (operands : List Premise)
  | any (operands : List Premise)
  | not (operand : Premise)
  deriving Repr

/-- A conjunction or disjunction was asked for without any operand. -/
structure MissingOperands where
  deriving DecidableEq, Repr

def MissingOperands.message (_ : MissingOperands) : String :=
  "missing arguments: AND/OR need at least one operand"

namespace Premise

mutual

def decEq : (p q : Premise) → Decidable (p = q)
  | .is a, .is b => decidable_of_iff (a = b) (by simp)
  | .all ps, .all qs => @decidable_of_iff _ (ps = qs) (by simp) (decEqList ps qs)
  | .any ps, .any qs => @decidable_of_iff _ (ps = qs) (by simp) (decEqList ps qs)
  | .not p, .not q => @decidable_of_iff _ (p = q) (by simp) (decEq p q)
  | .is _, .all _ | .is _, .any _ | .is _, .not _ => .isFalse nofun
  | .all _, .is _ | .all _, .any _ | .all _, .not _ => .isFalse nofun
  | .any _, .is _ | .any _, .all _ | .any _, .not _ => .isFalse nofun
  | .not _, .is _ | .not _, .all _ | .not _, .any _ => .isFalse nofun

def decEqList : (ps qs : List Premise) → Decidable (ps = qs)
  | [], [] => .isTrue rfl
  | [], _ :: _ | _ :: _, [] => .isFalse nofun
  | p :: ps, q :: qs =>
    @decidable_of_iff _ (p = q ∧ ps = qs) (by simp)
      (@instDecidableAnd _ _ (decEq p q) (decEqList ps qs))

end

instance : DecidableEq Premise := decEq

/-- The operands of a conjunction. Any other premise is its own only conjunct. -/
def conjuncts : Premise → List Premise
  | .all ps => ps
  | p => [p]

/-- The operands of a disjunction. Any other premise is its own only disjunct. -/
def disjuncts : Premise → List Premise
  | .any ps => ps
  | p => [p]

/-- Conjunction. Operands that are conjunctions themselves are taken apart. -/
def and (p q : Premise) : Premise :=
  .all (p.conjuncts ++ q.conjuncts)

/-- Disjunction. Operands that are disjunctions themselves are taken apart. -/
def or (p q : Premise) : Premise :=
  .any (p.disjuncts ++ q.disjuncts)

/-- Conjunction of a list, which must not be empty. -/
def all? : List Premise → Except MissingOperands Premise
  | [] => .error ⟨⟩
  | ps => .ok (.all ps)

/-- Disjunction of a list, which must not be empty. -/
def any? : List Premise → Except MissingOperands Premise
  | [] => .error ⟨⟩
  | ps => .ok (.any ps)

mutual

/-- The propositions of a premise, from left to right. -/
def propositions : Premise → List Proposition
  | .is p => [p]
  | .all ps => propositionsOfList ps
  | .any ps => propositionsOfList ps
  | .not p => p.propositions

def propositionsOfList : List Premise → List Proposition
  | [] => []
  | p :: ps => p.propositions ++ propositionsOfList ps

end

theorem propositionsOfList_eq_flatMap (ps : List Premise) :
    propositionsOfList ps = ps.flatMap propositions := by
  induction ps with
  | nil => rfl
  | cons p ps ih => simp [propositionsOfList, ih]

def isCompound : Premise → Bool
  | .all _ | .any _ => true
  | .is _ | .not _ => false

/-- Puts parentheses around a text where they are needed. -/
def grouped (needed : Bool) (text : String) : String :=
  if needed then "(" ++ text ++ ")" else text

/-- A bare `NOT` in front of another one would negate all that follows as well, so the inner one
is put in parentheses. -/
def needsGroupUnderNot : Premise → Bool
  | .is _ => false
  | .all _ | .any _ | .not _ => true

mutual

/-- The premise in the rule language. Compound operands stand in parentheses. -/
def text : Premise → String
  | .is p => p.text
  | .all ps => " AND ".intercalate (operandTexts ps)
  | .any ps => " OR ".intercalate (operandTexts ps)
  | .not p => "NOT " ++ grouped p.needsGroupUnderNot p.text

def operandTexts : List Premise → List String
  | [] => []
  | p :: ps => grouped p.isCompound p.text :: operandTexts ps

end

theorem operandTexts_eq_map (ps : List Premise) :
    operandTexts ps = ps.map fun p => grouped p.isCompound p.text := by
  induction ps with
  | nil => rfl
  | cons p ps ih => simp [operandTexts, ih]

end Premise

end FuzzyInference
