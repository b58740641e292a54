/-!
# Failed lookups

* `LookupError`: a name that stands for nothing, and where it was looked up;
* `LookupError.message`: the wording.
-/

namespace FuzzyInference

/-- A name that stands for nothing. -/
inductive LookupError where
  | undefinedVariable (name : String)
  | undefinedTerm (variableName term : String)
  | missingInput (variableName : String)
  deriving DecidableEq, Repr

def LookupError.message : LookupError → String
  | .undefinedVariable name => "undefined variable '" ++ name ++ "'"
  | .undefinedTerm variableName term =>
    "undefined term '" ++ term ++ "' for variable '" ++ variableName ++ "'"
  | .missingInput variableName => "value not found for variable '" ++ variableName ++ "'"

end FuzzyInference
