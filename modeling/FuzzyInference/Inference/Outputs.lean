import FuzzyInference.Variable
import Std.Data.TreeMap.Basic

/-!
# Outputs

What the rules have concluded so far: for each variable, and for each of its terms that some rule
concludes, a degree and a fuzzy set.

* `Outputs.add`: takes in one more conclusion. A term is capped at the degree of the rule, and
  several rules on one term are joined by maximum;
* `Outputs.best?`: the term with the greatest degree, of several the one first by name, unless that
  degree is zero.
-/

namespace FuzzyInference

/-- What the rules have concluded on one term. -/
structure TermOutput (α : Type) where
  term : String
  degree : α
  fuzzySet : FuzzySet α

namespace TermOutput

variable {α : Type}

def ofTerm (t : Term α) (degree : α) : TermOutput α :=
  ⟨t.name, degree, t.fuzzySet.clip degree⟩

/-- Takes in one more rule that concludes the same term. -/
def merge [Scalar α] (output : TermOutput α) (t : Term α) (degree : α) : TermOutput α :=
  { output with
    degree := Scalar.greatest output.degree degree
    fuzzySet := .max [output.fuzzySet, t.fuzzySet.clip degree] }

end TermOutput

/-- The outputs on one variable, by the name of their term. -/
abbrev TermOutputs (α : Type) : Type := Std.TreeMap String (TermOutput α)

/-- The outputs on all variables, by their name. Names are in the order of their characters. -/
structure Outputs (α : Type) where
  byVariable : Std.TreeMap String (TermOutputs α)

namespace Outputs

variable {α : Type}

def empty : Outputs α := ⟨∅⟩

/-- Takes in the conclusion that the variable belongs to the term, to some degree. -/
def add [Scalar α] (outputs : Outputs α) (variableName : String) (t : Term α) (degree : α) :
    Outputs α :=
  let terms := outputs.byVariable.getD variableName ∅
  let output := match terms[t.name]? with
    | some earlier => earlier.merge t degree
    | none => .ofTerm t degree
  ⟨outputs.byVariable.insert variableName (terms.insert t.name output)⟩

/-- The outputs on a variable, `none` when no rule concludes it. -/
def get? (outputs : Outputs α) (variableName : String) : Option (TermOutputs α) :=
  outputs.byVariable[variableName]?

def term? (outputs : Outputs α) (variableName term : String) : Option (TermOutput α) :=
  (outputs.get? variableName).bind (·[term]?)

def variableNames (outputs : Outputs α) : List String := outputs.byVariable.keys

def isEmpty (outputs : Outputs α) : Bool := outputs.byVariable.isEmpty

/-- Of two outputs the one with the greater degree, and the first when they have the same. -/
def better [Scalar α] (first second : TermOutput α) : TermOutput α :=
  if second.degree ≤ first.degree then first else second

/-- The best of the outputs on a variable. When even its degree is zero, there is none. -/
def best? [Scalar α] (outputs : Outputs α) (variableName : String) : Option (TermOutput α) :=
  match (outputs.get? variableName).map (·.values) with
  | some (output :: rest) =>
    let best := rest.foldl better output
    if best.degree == 0 then none else some best
  | _ => none

end Outputs

end FuzzyInference
