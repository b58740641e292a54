import FuzzyInference.Language.Position

/-!
# Tokens

* `TokenKind`: what the grammar tells apart: reserved words, punctuation and everything else;
* `TokenKind.ofText`: the kind of a word, whatever the case of its ASCII letters;
* `Token`: a word of a source and its place. Its kind is that of its text.
-/

namespace FuzzyInference

/-- The kinds of words. An identifier is a name, a number or any other word. -/
inductive TokenKind where
  | ifWord | isWord | thenWord | andWord | orWord | notWord | defineWord | termWord
  | linear | triangular | trapezoid | inverted
  | semicolon | openParen | closeParen | comma
  | identifier
  deriving DecidableEq, Repr

namespace TokenKind

/-- The name of a kind. For all but the identifier it is the word itself, in upper case. -/
def text : TokenKind → String
  | ifWord => "IF"
  | isWord => "IS"
  | thenWord => "THEN"
  | andWord => "AND"
  | orWord => "OR"
  | notWord => "NOT"
  | defineWord => "DEFINE"
  | termWord => "TERM"
  | linear => "LINEAR"
  | triangular => "TRIANGULAR"
  | trapezoid => "TRAPEZOID"
  | inverted => "INVERTED"
  | semicolon => ";"
  | openParen => "("
  | closeParen => ")"
  | comma => ","
  | identifier => "identifier"

/-- The kinds that have a word of their own. -/
def reserved : List TokenKind :=
  [ifWord, isWord, thenWord, andWord, orWord, notWord, defineWord, termWord, linear, triangular,
    trapezoid, inverted, semicolon, openParen, closeParen, comma]

/-- The kind of a word. Only the ASCII letters have a case here. -/
def ofText (word : String) : TokenKind :=
  (reserved.find? (·.text = word.toUpper)).getD identifier

end TokenKind

structure Token where
  text : String
  position : Position
  deriving DecidableEq, Repr

/-- The kind of a token depends on its text alone. -/
def Token.kind (t : Token) : TokenKind := .ofText t.text

end FuzzyInference
