import FuzzyInference.Defuzzification.Basic
import FuzzyInference.Document
import FuzzyInference.Inference.Context
import FuzzyInference.Inference.Outputs

/-!
# Engines

An engine holds rules, variables and a way to defuzzify.

* `Engine.infer`: applies every rule, in order, to the inputs. A name that stands for nothing ends
  the pass without any output;
* `Engine.defuzzify`: the crisp value of a variable from the outputs of a pass.
-/

namespace FuzzyInference

/-- Rules and variables, and how to come to a crisp value. -/
structure Engine (α : Type) where
  rules : List Rule
  catalog : Catalog α
  defuzzifier : Defuzzifier α

namespace Engine

variable {α : Type}

def ofDefuzzifier (defuzzifier : Defuzzifier α) : Engine α := ⟨[], .empty, defuzzifier⟩

/-- An engine without rules and variables that takes the centroid in a thousand steps. -/
def standard [Scalar α] : Engine α := ofDefuzzifier (Defuzzification.defuzzifier ⟨.centroid, 1000⟩)

/-- Puts other variables in place of all there are, unless two of them share a name. -/
def withVariables (engine : Engine α) (definitions : List (Variable α)) :
    Except DuplicateVariable (Engine α) :=
  (Catalog.ofList definitions).map fun catalog => { engine with catalog }

def withRules (engine : Engine α) (rules : List Rule) : Engine α := { engine with rules }

/-- Puts the variables and the rules of a document in place of all there are. -/
def load (engine : Engine α) (d : Document α) : Except DuplicateVariable (Engine α) :=
  (engine.withVariables d.definitions).map (·.withRules d.rules)

variable [Scalar α]

/-- Applies a rule. The variable of its conclusion is looked up first, then the term, and then the
premise is evaluated. -/
def applyRule (ctx : Context α) (outputs : Outputs α) (rule : Rule) :
    Except LookupError (Outputs α) := do
  let v ← ctx.lookup rule.conclusion.variableName
  let t ← v.term rule.conclusion.term
  let degree ← rule.premise.degree ctx
  pure (outputs.add rule.conclusion.variableName t degree)

def infer (engine : Engine α) (inputs : Inputs α) : Except LookupError (Outputs α) :=
  engine.rules.foldlM (applyRule ⟨engine.catalog, inputs⟩) .empty

/-- The crisp value of a variable. Without any output on it, the midpoint of its universe. -/
def defuzzify (engine : Engine α) (variableName : String) (outputs : Outputs α) :
    Except LookupError α := do
  let v ← engine.catalog.lookup variableName
  match (outputs.get? variableName).map (·.values) with
  | some (output :: rest) =>
    pure (engine.defuzzifier (.max ((output :: rest).map (·.fuzzySet))) v.universeRange)
  | _ => pure v.universeRange.midpoint

end Engine

end FuzzyInference
