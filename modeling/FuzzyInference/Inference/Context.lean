import FuzzyInference.Catalog
import FuzzyInference.Inference.Inputs
import FuzzyInference.Premise

/-!
# Evaluating premises

* `Context`: the variables and the inputs that names are looked up in;
* `Proposition.degree`: the degree of the variable's input in the term;
* `Premise.degree`: conjunction is the minimum, disjunction the maximum, negation one less the
  degree. The first operand that fails decides how the whole fails.
-/

namespace FuzzyInference

/-- What names stand for while rules are applied. -/
structure Context (α : Type) where
  catalog : Catalog α
  inputs : Inputs α

namespace Context

variable {α : Type}

def lookup (ctx : Context α) (name : String) : Except LookupError (Variable α) :=
  ctx.catalog.lookup name

def input (ctx : Context α) (variableName : String) : Except LookupError α :=
  match ctx.inputs.get? variableName with
  | some x => .ok x
  | none => .error (.missingInput variableName)

end Context

variable {α : Type} [Scalar α]

/-- The degree to which the input of the variable belongs to the term. The variable is looked up
first, then the term, then the input. -/
def Proposition.degree (p : Proposition) (ctx : Context α) : Except LookupError α := do
  let v ← ctx.lookup p.variableName
  let t ← v.term p.term
  let x ← ctx.input p.variableName
  pure (t.fuzzySet.degree x)

namespace Premise

mutual

def degree (ctx : Context α) : Premise → Except LookupError α
  | .is p => p.degree ctx
  | .all ps => (degrees ctx ps).map (·.foldl Scalar.least Scalar.posInf)
  | .any ps => (degrees ctx ps).map (·.foldl Scalar.greatest Scalar.negInf)
  | .not p => (p.degree ctx).map (1 - ·)

def degrees (ctx : Context α) : List Premise → Except LookupError (List α)
  | [] => .ok []
  | p :: ps => do
    let first ← p.degree ctx
    let rest ← degrees ctx ps
    pure (first :: rest)

end

theorem degrees_eq_mapM (ctx : Context α) (ps : List Premise) :
    degrees ctx ps = ps.mapM (degree ctx) := by
  induction ps with
  | nil => rfl
  | cons p ps ih => simp [degrees, ih]

end Premise

end FuzzyInference
