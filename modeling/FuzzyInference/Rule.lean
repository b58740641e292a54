import FuzzyInference.Premise

/-!
# Rules

* `Rule`: a premise and the proposition to conclude from it;
* `Rule.text`: the rule as a statement of the rule language.
-/

namespace FuzzyInference

/-- A rule: to the degree to which the premise holds, the conclusion does. -/
structure Rule where
  premise : Premise
  conclusion : Proposition
  deriving DecidableEq, Repr

def Rule.text (r : Rule) : String :=
  "IF " ++ r.premise.text ++ " THEN " ++ r.conclusion.text ++ ";"

end FuzzyInference
