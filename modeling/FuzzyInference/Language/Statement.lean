import FuzzyInference.Language.Definition
import FuzzyInference.Language.Premise
import FuzzyInference.Rule

/-!
# Reading statements

A source is a sequence of statements: rules and definitions of variables. A statement that cannot
be read is an error and is passed over, and reading goes on behind it.

* `readRule`: what follows `IF`, up to the semicolon;
* `skipStatement`: where the next statement starts;
* `Attempt`: what came of one statement, with at most one error;
* `readStatement`, `readStatements`: one statement, and all of them. Every attempt uses up a token
  at least.
-/

namespace FuzzyInference

inductive Statement (α : Type) where
  | rule (rule : Rule)
  | definition (defined : Variable α)

/-- What came of one statement. A rule without its semicolon is kept and is an error too. -/
structure Attempt (α : Type) where
  start : Position
  statement : Option (Statement α)
  error : Option ParseError

/-- Reads what follows `IF`, up to the semicolon. -/
def readRule : Reading Rule := do
  let premise ← readPremise
  let _ ← Reading.expect .thenWord .missingThen
  let conclusion ← readProposition
  pure ⟨premise, conclusion⟩

/-- What is left from the next statement on: behind the next semicolon, or from the next `IF` or
`DEFINE` if that comes first. -/
def skipStatement : List Token → List Token
  | [] => []
  | token :: rest =>
    match token.kind with
    | .semicolon => rest
    | .ifWord | .defineWord => token :: rest
    | _ => skipStatement rest

theorem skipStatement_suffix (tokens : List Token) : skipStatement tokens <:+ tokens := by
  fun_induction skipStatement tokens with
  | case1 => exact List.suffix_rfl
  | case2 token rest => exact List.suffix_cons _ _
  | case3 | case4 => exact List.suffix_rfl
  | case5 token rest _ _ _ ih => exact ih.trans (List.suffix_cons _ _)

namespace Cursor

def recover (c : Cursor) : Cursor := { c with rest := skipStatement c.rest }

theorem recover_follows (c : Cursor) : c.recover.Follows c := ⟨skipStatement_suffix _, rfl⟩

end Cursor

variable {α : Type}

def finishDefinition (start : Position) {c : Cursor} (reply : Reply c (Variable α)) :
    Attempt α × { d : Cursor // d.Follows c } :=
  match reply.result with
  | .ok v => (⟨start, some (.definition v), none⟩, ⟨reply.next, reply.forward⟩)
  | .error e =>
    (⟨start, none, some e⟩, ⟨reply.next.recover, reply.next.recover_follows.trans reply.forward⟩)

def finishRule (start : Position) {c : Cursor} (reply : Reply c Rule) :
    Attempt α × { d : Cursor // d.Follows c } :=
  let behind := reply.next.recover_follows.trans reply.forward
  match reply.result with
  | .ok rule =>
    if reply.next.peekKind = some .semicolon then
      (⟨start, some (.rule rule), none⟩,
        ⟨reply.next.advance, reply.next.advance_follows.trans reply.forward⟩)
    else
      (⟨start, some (.rule rule), some ⟨.missingRuleEnd, reply.next.position⟩⟩,
        ⟨reply.next.recover, behind⟩)
  | .error e => (⟨start, none, some e⟩, ⟨reply.next.recover, behind⟩)

/-- Reads the statement that starts with the token `first`, which `c` stands right behind, and
passes over what is left of it after an error. A semicolon is a statement by itself, and a wrong
one. -/
def readStatement (table : FunctionTable α) (first : Token) (c : Cursor) :
    Attempt α × { d : Cursor // d.Follows c } :=
  let start := first.position
  match first.kind with
  | .defineWord => finishDefinition start (readDefinition table start c)
  | .ifWord => finishRule start (readRule c)
  | kind =>
    (⟨start, none, some ⟨.unknownStatement first.text, start⟩⟩,
      if kind = .semicolon then ⟨c, .refl c⟩ else ⟨c.recover, c.recover_follows⟩)

/-- Reads statements until no token is left. -/
def readStatements (table : FunctionTable α) (c : Cursor) : List (Attempt α) × Cursor :=
  if h : c.rest = [] then ([], c)
  else
    let read := readStatement table (c.rest.head h) c.advance
    have := read.2.property.length_lt h
    let others := readStatements table read.2
    (read.1 :: others.1, others.2)
  termination_by c.rest.length

end FuzzyInference
