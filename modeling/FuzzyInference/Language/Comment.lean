/-!
# Comments

A comment runs from `//` to the end of the line or from `/*` to the next `*/`. Openers inside a
comment have no effect, and a `/*` that is never closed runs to the end.

* `blankComments`: puts a space in the place of every character of a comment and keeps the line
  breaks, so that what remains stays where it was.
-/

namespace FuzzyInference

/-- Whether a character stands inside a comment, and inside which kind. -/
inductive CommentState where
  | outside
  | line
  | block
  deriving DecidableEq, Repr

/-- Blanks out the comments of a text that starts in the given state. -/
def blankFrom : CommentState → List Char → List Char
  | _, [] => []
  | .outside, '/' :: '/' :: rest => ' ' :: ' ' :: blankFrom .line rest
  | .outside, '/' :: '*' :: rest => ' ' :: ' ' :: blankFrom .block rest
  | .outside, c :: rest => c :: blankFrom .outside rest
  | .line, '\n' :: rest => '\n' :: blankFrom .outside rest
  | .line, _ :: rest => ' ' :: blankFrom .line rest
  | .block, '*' :: '/' :: rest => ' ' :: ' ' :: blankFrom .outside rest
  | .block, '\n' :: rest => '\n' :: blankFrom .block rest
  | .block, _ :: rest => ' ' :: blankFrom .block rest

/-- Puts spaces in the place of all comments. -/
def blankComments (source : String) : String :=
  String.ofList (blankFrom .outside source.toList)

end FuzzyInference
