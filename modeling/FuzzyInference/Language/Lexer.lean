import FuzzyInference.Language.Comment
import FuzzyInference.Language.Token
import FuzzyInference.Text.Blank

/-!
# Lexer

A source is cut into lines, and each line into words, with every punctuation mark a word by
itself. The words are then looked for in the line, one behind the other, to find their places.

* `tokenize`: the words of a source and their places;
* `scan`: the same in one pass over the characters. It says what `tokenize` comes to.
-/

namespace FuzzyInference

/-- The characters that are words by themselves. -/
def isPunctuation (c : Char) : Bool :=
  c = ';' || c = '(' || c = ')' || c = ','

/-- Sets punctuation apart from the words around it. -/
def spaceOut (line : List Char) : List Char :=
  line.flatMap fun c => if isPunctuation c then [' ', c, ' '] else [c]

/-- How many characters stand before the first occurrence of `word`. -/
def findWord? (word : List Char) : List Char → Option Nat
  | [] => if word.isEmpty then some 0 else none
  | c :: rest =>
    if word.isPrefixOf (c :: rest) then some 0 else (findWord? word rest).map (· + 1)

/-- Finds the places of the words in what is left of a line. Each is looked for behind the one
before it. -/
def placeWords (place : Position) (line : List Char) : List (List Char) → List Token
  | [] => []
  | word :: words =>
    let before := (findWord? word line).getD 0
    let used := before + word.length
    ⟨String.ofList word, { place with column := place.column + before }⟩ ::
      placeWords { place with column := place.column + (line.take used).length }
        (line.drop used) words

def lineTokens (line : List Char) (number : Nat) : List Token :=
  placeWords ⟨number, 1⟩ line (Text.words (spaceOut line))

def tokenize (source : String) : List Token :=
  let lines := (blankComments source).toList.splitOn '\n'
  (lines.zipIdx 1).flatMap fun (line, number) => lineTokens line number

/-- A character of a word of more than punctuation. -/
def isWordChar (c : Char) : Bool :=
  !Text.isBlank c && !isPunctuation c

/-- The tokens of a text without comments that starts at `place`, in one pass: blanks are passed
over, punctuation marks and the longest runs of other characters are tokens. -/
def scan (place : Position) : List Char → List Token
  | [] => []
  | c :: rest =>
    if c = '\n' then scan ⟨place.line + 1, 1⟩ rest
    else if Text.isBlank c then scan { place with column := place.column + 1 } rest
    else if isPunctuation c then
      ⟨c.toString, place⟩ :: scan { place with column := place.column + 1 } rest
    else
      let word := c :: rest.takeWhile isWordChar
      ⟨String.ofList word, place⟩ ::
        scan { place with column := place.column + word.length } (rest.dropWhile isWordChar)
  termination_by text => text.length
  decreasing_by
    all_goals simp only [List.length_cons, Nat.lt_succ_iff, Nat.le_refl]
    exact (List.dropWhile_suffix _).length_le

end FuzzyInference
