import FuzzyInference.Language.Position
import FuzzyInference.Variable

/-!
# Parse errors

* `Problem`: what is wrong with a source at one place;
* `Problem.message`, `Problem.cause`: the wording, and what lies behind the problem if something
  does;
* `ParseError`: a problem and its place.
-/

namespace FuzzyInference

/-- What is wrong at one place of a source. -/
inductive Problem where
  /-- A statement starts with some other word than `IF` or `DEFINE`. -/
  | unknownStatement (found : String)
  | missingThen
  | missingRuleEnd
  | unclosedGroup
  | missingVariable
  | missingIs
  | missingTerm
  | missingDefinedName
  | unopenedDefinition
  | strayInDefinition
  | unclosedDefinition
  | missingTermSeparator
  | missingDefinitionEnd
  | missingTermName
  /-- A definition is complete, but two of its terms share a name. -/
  | invalidDefinition (duplicate : DuplicateTerm)
  | missingFunction
  | unknownFunction (name : String)
  | unopenedArguments (function : String)
  | missingArgumentSeparator
  /-- The parameter with this index, counted from zero, is not there. -/
  | missingArgument (function : String) (index : Nat)
  | unclosedArguments (function : String)
  | unclosedOperand (function : String)
  | invalidNumber (text : String)
  /-- A problem in the words of whoever reads a function of their own. -/
  | other (message : String) (cause : Option String)
  deriving DecidableEq, Repr

namespace Problem

/-- How the parameters of a function are counted. -/
def ordinal (index : Nat) : String :=
  ["first", "second", "third", "fourth"].getD index "next"

def message : Problem → String
  | unknownStatement found => "expected rule to start with IF, found " ++ found
  | missingThen => "expected THEN after premise"
  | missingRuleEnd => "missing semicolon at end of rule"
  | unclosedGroup => "missing closing parenthesis"
  | missingVariable => "expected variable name"
  | missingIs => "expected IS after variable"
  | missingTerm => "expected term name after IS"
  | missingDefinedName => "expected variable name after DEFINE"
  | unopenedDefinition => "expected ( after variable name"
  | strayInDefinition => "expected TERM in variable definition"
  | unclosedDefinition => "expected ) at end of variable definition"
  | missingTermSeparator => "expected , or ) after term"
  | missingDefinitionEnd => "expected ; after variable definition"
  | missingTermName => "expected term name"
  | invalidDefinition duplicate => "invalid definition of variable " ++ duplicate.variableName
  | missingFunction => "expected membership function type"
  | unknownFunction name => "unknown membership function type: " ++ name
  | unopenedArguments function => "expected ( after " ++ function
  | missingArgumentSeparator => "expected , between parameters"
  | missingArgument function index =>
    "expected " ++ ordinal index ++ " parameter for " ++ function
  | unclosedArguments function => "expected ) after " ++ function ++ " parameters"
  | unclosedOperand function => "expected ) after " ++ function ++ " function"
  | invalidNumber text => "invalid number: " ++ text
  | other message _ => message

def cause : Problem → Option String
  | invalidDefinition duplicate => some duplicate.message
  | invalidNumber _ => some "invalid float literal"
  | other _ cause => cause
  | _ => none

end Problem

structure ParseError where
  problem : Problem
  position : Position
  deriving DecidableEq, Repr

namespace ParseError

def message (e : ParseError) : String := e.problem.message

def cause (e : ParseError) : Option String := e.problem.cause

def text (e : ParseError) : String :=
  e.message ++ " at " ++ e.position.text ++ (e.cause.map (": " ++ ·)).getD ""

def joined (errors : List ParseError) : String :=
  "parsing errors: " ++ "; ".intercalate (errors.map text)

end ParseError

end FuzzyInference
