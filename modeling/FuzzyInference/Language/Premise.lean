import FuzzyInference.Language.Cursor
import FuzzyInference.Premise

/-!
# Reading premises

* `readProposition`: `variable IS term`;
* `readPremise`: an operand, and behind `AND` or `OR` a premise again. Neither of the two words
  binds more tightly than the other, and the rest of the premise is the right operand;
* `readOperand`: a proposition, a premise in parentheses, or a negation.
-/

namespace FuzzyInference

/-- The place at which the `IS` of a proposition is missed: one character behind the variable. -/
def Token.placeBehind (t : Token) : Position :=
  { t.position with column := t.position.column + t.text.length + 1 }

/-- Reads `variable IS term`. -/
def readProposition : Reading Proposition := do
  let name ← Reading.expect .identifier .missingVariable
  let _ ← Reading.expectAt name.placeBehind .isWord .missingIs
  let term ← Reading.expect .identifier .missingTerm
  pure ⟨name.text, term.text⟩

mutual

def readPremise (c : Cursor) : Reply c Premise :=
  (readOperand c).andThen fun left d later =>
    if h : d.peekKind = some .andWord then
      have := later.length_advance_lt h
      ((readPremise d.advance).map left.and).since d.advance_follows
    else if h : d.peekKind = some .orWord then
      have := later.length_advance_lt h
      ((readPremise d.advance).map left.or).since d.advance_follows
    else .ok d left
  termination_by (c.rest.length, 1)

/-- Reads an operand. `NOT` applies to the one proposition or group behind it. Before anything
else, such as a second `NOT`, it applies to all the rest of the premise. -/
def readOperand (c : Cursor) : Reply c Premise :=
  if h : c.peekKind = some .notWord then
    have := Cursor.length_advance_lt h
    match c.advance.peekKind with
    | some .identifier | some .openParen =>
      ((readOperand c.advance).map .not).since c.advance_follows
    | _ => ((readPremise c.advance).map .not).since c.advance_follows
  else if h : c.peekKind = some .openParen then
    have := Cursor.length_advance_lt h
    ((readPremise c.advance).andThen fun inner d _ =>
      (Reading.expect .closeParen .unclosedGroup d).map fun _ => inner).since c.advance_follows
  else (readProposition c).map .is
  termination_by (c.rest.length, 0)

end

end FuzzyInference
