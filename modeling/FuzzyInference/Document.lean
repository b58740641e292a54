import FuzzyInference.Rule
import FuzzyInference.Variable

/-!
# Documents

* `Document`: rules and definitions of variables, each in an order of their own;
* `Document.text`: the document in the rule language.
-/

namespace FuzzyInference

structure Document (α : Type) where
  rules : List Rule
  definitions : List (Variable α)

/-- Two documents are equal if they have the same rules, and variables of the same names and terms
with equal numbers. -/
instance {α : Type} [Scalar α] : BEq (Document α) where
  beq d e := d.rules = e.rules && d.definitions == e.definitions

/-- All variables and then all rules, with line breaks between them. -/
def Document.text {α : Type} [Literal α] (d : Document α) : String :=
  "\n".intercalate (d.definitions.map (·.text) ++ d.rules.map (·.text))

end FuzzyInference
