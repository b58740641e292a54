import FuzzyInference.Document
import FuzzyInference.Language.Lexer
import FuzzyInference.Language.Statement

/-!
# Parsing

* `Parsing`: what came of each statement of a source, and from that its document and its errors;
* `parse`: reads a whole source. Whatever the errors, the document holds all that could be read.
-/

namespace FuzzyInference

structure Parsing (α : Type) where
  attempts : List (Attempt α)

namespace Statement

variable {α : Type}

def rule? : Statement α → Option Rule
  | rule r => some r
  | definition _ => none

def definition? : Statement α → Option (Variable α)
  | rule _ => none
  | definition v => some v

end Statement

namespace Parsing

variable {α : Type}

def statements (p : Parsing α) : List (Statement α) := p.attempts.filterMap (·.statement)

/-- Everything that could be read, in spite of any errors. -/
def document (p : Parsing α) : Document α :=
  ⟨p.statements.filterMap (·.rule?), p.statements.filterMap (·.definition?)⟩

/-- The errors, in the order they were found in. -/
def errors (p : Parsing α) : List ParseError := p.attempts.filterMap (·.error)

/-- The document of a source without errors. -/
def toExcept (p : Parsing α) : Except (List ParseError) (Document α) :=
  if p.errors.isEmpty then .ok p.document else .error p.errors

end Parsing

variable {α : Type}

def parseTokens (table : FunctionTable α) (tokens : List Token) : Parsing α :=
  ⟨(readStatements table (.ofTokens tokens)).1⟩

def parse (table : FunctionTable α) (source : String) : Parsing α :=
  parseTokens table (tokenize source)

end FuzzyInference
