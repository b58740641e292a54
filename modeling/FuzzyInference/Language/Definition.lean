import FuzzyInference.Language.FunctionTable

/-!
# Reading definitions

* `readTerm`: `TERM name function`;
* `readTerms`: terms with commas between them;
* `readDefinition`: what follows `DEFINE`.
-/

namespace FuzzyInference

variable {α : Type}

/-- Reads `TERM name function`. -/
def readTerm (table : FunctionTable α) : Reading (Term α) := do
  let _ ← Reading.expect .termWord .strayInDefinition
  let name ← Reading.expect .identifier .missingTermName
  let fuzzySet ← readFuzzySet table
  pure ⟨name.text, fuzzySet⟩

/-- Reads terms with commas between them, and perhaps one behind the last, up to the closing
parenthesis. -/
def readTerms (table : FunctionTable α) (c : Cursor) : Reply c (List (Term α)) :=
  match c.peekKind with
  | some .closeParen => .ok c []
  | some .termWord =>
    (readTerm table c).andThen fun term d later =>
      if h : d.peekKind = some .comma then
        have := later.length_advance_lt h
        ((readTerms table d.advance).map (term :: ·)).since d.advance_follows
      else if d.peekKind = some .closeParen then .ok d [term]
      else .error d ⟨.missingTermSeparator, d.position⟩
  | some _ => .error c ⟨.strayInDefinition, c.position⟩
  | none => .error c ⟨.unclosedDefinition, c.position⟩
  termination_by c.rest.length

/-- Reads what follows `DEFINE`. Two terms of one name are a problem of the whole definition,
which starts at `start`. -/
def readDefinition (table : FunctionTable α) (start : Position) : Reading (Variable α) := do
  let name ← Reading.expect .identifier .missingDefinedName
  let _ ← Reading.expect .openParen .unopenedDefinition
  let terms ← readTerms table
  let _ ← Reading.expect .closeParen .unclosedDefinition
  let _ ← Reading.expect .semicolon .missingDefinitionEnd
  match Variable.ofTerms name.text terms with
  | .ok v => pure v
  | .error duplicate => Reading.fail ⟨.invalidDefinition duplicate, start⟩

end FuzzyInference
