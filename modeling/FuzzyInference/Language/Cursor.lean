import FuzzyInference.Language.ParseError
import FuzzyInference.Language.Token
import FuzzyInference.Number.Scalar

/-!
# Reading tokens

A cursor stands between the tokens already read and those still to come. What reads at a cursor
replies with a value or an error and with the cursor behind the last token it used up. A token
that was used up before an error stays used up.

* `Cursor`: the tokens still to come;
* `Cursor.Follows`: one cursor stands at another one or behind it in the same source;
* `Reply`: what came of reading. Its cursor follows the one that reading started at, so whatever
  reads moves forward only;
* `Reading`: reading that can start at any cursor. Readings are put together with `do`;
* `Reading.expect`, `Reading.number`, `Reading.arguments`: the readings that all others are made
  of.
-/

namespace FuzzyInference

/-- A place between the tokens of a source. -/
structure Cursor where
  /-- The tokens still to come. -/
  rest : List Token
  /-- Where the last token of the source stands. -/
  endPosition : Position

namespace Cursor

def ofTokens (tokens : List Token) : Cursor :=
  ⟨tokens, (tokens.getLast?.map (·.position)).getD .start⟩

def peek (c : Cursor) : Option Token := c.rest.head?

def peekKind (c : Cursor) : Option TokenKind := c.peek.map (·.kind)

/-- The place of the next token, or of the last one when none is left. -/
def position (c : Cursor) : Position := (c.peek.map (·.position)).getD c.endPosition

def advance (c : Cursor) : Cursor := { c with rest := c.rest.tail }

/-- `d` stands at `c` or behind it. -/
structure Follows (d c : Cursor) : Prop where
  rest : d.rest <:+ c.rest
  endPosition : d.endPosition = c.endPosition

theorem Follows.refl (c : Cursor) : c.Follows c := ⟨List.suffix_rfl, rfl⟩

theorem Follows.trans {c d e : Cursor} (h : e.Follows d) (k : d.Follows c) : e.Follows c :=
  ⟨h.rest.trans k.rest, h.endPosition.trans k.endPosition⟩

theorem Follows.length_le {c d : Cursor} (h : d.Follows c) : d.rest.length ≤ c.rest.length :=
  h.rest.length_le

theorem advance_follows (c : Cursor) : c.advance.Follows c := ⟨List.tail_suffix _, rfl⟩

theorem length_advance_lt {c : Cursor} {k : TokenKind} (h : c.peekKind = some k) :
    c.advance.rest.length < c.rest.length := by
  cases hr : c.rest with
  | nil => simp [peekKind, peek, hr] at h
  | cons t ts => simp [advance, hr]

theorem Follows.length_advance_lt {c d : Cursor} {k : TokenKind} (later : d.Follows c)
    (h : d.peekKind = some k) : d.advance.rest.length < c.rest.length :=
  Nat.lt_of_lt_of_le (Cursor.length_advance_lt h) later.length_le

theorem Follows.length_lt {c d : Cursor} (later : d.Follows c.advance) (h : c.rest ≠ []) :
    d.rest.length < c.rest.length := by
  have := later.length_le
  have := List.length_pos_iff.mpr h
  simp only [advance, List.length_tail] at *
  omega

end Cursor

/-- What came of reading at the cursor `start`. -/
structure Reply (start : Cursor) (β : Type) where
  result : Except ParseError β
  next : Cursor
  forward : next.Follows start

namespace Reply

variable {β γ : Type} {c d : Cursor}

/-- A value, with no token used up. -/
def ok (c : Cursor) (b : β) : Reply c β := ⟨.ok b, c, .refl c⟩

/-- An error, with no token used up. -/
def error (c : Cursor) (e : ParseError) : Reply c β := ⟨.error e, c, .refl c⟩

/-- The same reply for a reading that started earlier. -/
def since (r : Reply d β) (h : d.Follows c) : Reply c β := ⟨r.result, r.next, r.forward.trans h⟩

/-- Goes on reading where a value was found, unless there is an error. -/
def andThen (r : Reply c β) (f : β → (d : Cursor) → d.Follows c → Reply d γ) : Reply c γ :=
  match r.result with
  | .ok b => (f b r.next r.forward).since r.forward
  | .error e => ⟨.error e, r.next, r.forward⟩

def map (r : Reply c β) (f : β → γ) : Reply c γ := ⟨r.result.map f, r.next, r.forward⟩

end Reply

def Reading (β : Type) : Type := (c : Cursor) → Reply c β

namespace Reading

variable {α β : Type}

instance : Monad Reading where
  pure b c := .ok c b
  bind r f c := (r c).andThen fun b d _ => f b d

def fail (e : ParseError) : Reading β := fun c => .error c e

/-- Uses up a token of the given kind. Without one, there is a problem at `place`. -/
def expectAt (place : Position) (kind : TokenKind) (problem : Problem) : Reading Token := fun c =>
  match c.peek with
  | some token =>
    if token.kind = kind then (Reply.ok c.advance token).since c.advance_follows
    else .error c ⟨problem, place⟩
  | none => .error c ⟨problem, place⟩

/-- Uses up a token of the given kind. Any other one is a problem at its place. -/
def expect (kind : TokenKind) (problem : Problem) : Reading Token := fun c =>
  expectAt c.position kind problem c

/-- Reads a number. A word that is none is used up all the same. -/
def number [Scalar α] (problem : Problem) : Reading α := do
  let token ← expect .identifier problem
  match Numeral.read? token.text with
  | some numeral => pure (Scalar.ofNumeral numeral)
  | none => fail ⟨.invalidNumber token.text, token.position⟩

def numbers [Scalar α] (function : String) : (count : Nat) → Reading (Vector α count)
  | 0 => pure #v[]
  | count + 1 => do
    let before ← numbers function count
    if 0 < count then
      let _ ← expect .comma .missingArgumentSeparator
    let x ← number (.missingArgument function count)
    pure (before.push x)

/-- Reads exactly `count` numbers in parentheses, as the parameters of `function`. -/
def arguments [Scalar α] (function : String) (count : Nat) : Reading (Vector α count) := do
  let _ ← expect .openParen (.unopenedArguments function)
  let xs ← numbers function count
  let _ ← expect .closeParen (.unclosedArguments function)
  pure xs

end Reading

end FuzzyInference
