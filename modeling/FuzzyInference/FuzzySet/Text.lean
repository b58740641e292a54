import FuzzyInference.FuzzySet.Basic
import FuzzyInference.Number.Literal

/-!
# Written fuzzy sets

* `FuzzySet.text`: the function notation of the rule language. Constants, minima and maxima have
  no word in that language; they are written the same way all the same, to be read by people.
-/

namespace FuzzyInference

def applied (name : String) (arguments : List String) : String :=
  name ++ "(" ++ ", ".intercalate arguments ++ ")"

namespace FuzzySet

variable {α : Type} [Literal α]

mutual

/-- The set in function notation. -/
def text : FuzzySet α → String
  | .constant y => applied "CONSTANT" [Literal.write y]
  | .linear a b => applied "LINEAR" ([a, b].map Literal.write)
  | .triangular a b c => applied "TRIANGULAR" ([a, b, c].map Literal.write)
  | .trapezoid a b c d => applied "TRAPEZOID" ([a, b, c, d].map Literal.write)
  | .inverted m => applied "INVERTED" [m.text]
  | .min ms => applied "MIN" (texts ms)
  | .max ms => applied "MAX" (texts ms)

def texts : List (FuzzySet α) → List String
  | [] => []
  | m :: ms => m.text :: texts ms

end

end FuzzySet

end FuzzyInference
