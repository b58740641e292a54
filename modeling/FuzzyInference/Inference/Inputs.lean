import FuzzyInference.Number.Scalar
import Std.Data.TreeMap.Basic

/-!
# Inputs

* `Inputs`: the crisp value of each variable that has one, by name. The last value given counts.
-/

namespace FuzzyInference

/-- Crisp values by the name of their variable. -/
structure Inputs (α : Type) where
  values : Std.TreeMap String α

namespace Inputs

variable {α : Type}

def empty : Inputs α := ⟨∅⟩

/-- Gives a variable a value in place of any earlier one. -/
def insert (inputs : Inputs α) (variableName : String) (value : α) : Inputs α :=
  ⟨inputs.values.insert variableName value⟩

def ofList (values : List (String × α)) : Inputs α :=
  values.foldl (fun inputs (name, value) => inputs.insert name value) empty

def get? (inputs : Inputs α) (variableName : String) : Option α := inputs.values[variableName]?

/-- Inputs are equal if they give equal values to the same variables. -/
instance [Scalar α] : BEq (Inputs α) where
  beq a b := a.values.toList == b.values.toList

end Inputs

end FuzzyInference
