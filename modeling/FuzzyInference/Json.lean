/-!
# JSON

JSON documents, read strictly: no comments, no commas at the end of a list, blanks only of the four
kinds JSON knows, no control characters in strings.

* `Json`: a document. Numbers stay text, so nothing is rounded. A string may hold the escape of an
  unpaired surrogate, which stands for no character: it has no text then;
* `Json.read?`: reads a whole text. Each reader on the way gives back a value and the rest of the
  text;
* `Json.text`: writes a document without blanks.
-/

namespace FuzzyInference

/-- A JSON document. The members of an object stay in order, repeated keys and all. -/
inductive Json where
  | null
  | bool (value : Bool)
  | number (text : String)
  | string (text : Option String)
  | array (elements : List Json)
  | object (members : List (Option String × Json))

namespace Json

def isBlank (c : Char) : Bool := c = ' ' || c = '\t' || c = '\n' || c = '\r'

def skipBlanks (text : List Char) : List Char := text.dropWhile isBlank

def hexDigit? (c : Char) : Option Nat :=
  if c.isDigit then some (c.toNat - '0'.toNat)
  else if 'a' ≤ c && c ≤ 'f' then some (c.toNat - 'a'.toNat + 10)
  else if 'A' ≤ c && c ≤ 'F' then some (c.toNat - 'A'.toNat + 10)
  else none

def readUnit : List Char → Option (Nat × List Char)
  | a :: b :: c :: d :: rest => do
    let a ← hexDigit? a
    let b ← hexDigit? b
    let c ← hexDigit? c
    let d ← hexDigit? d
    pure (((a * 16 + b) * 16 + c) * 16 + d, rest)
  | _ => none

/-- The character of an escape with one letter. -/
def escaped? (c : Char) : Option Char :=
  match c with
  | '"' => some '"'
  | '\\' => some '\\'
  | '/' => some '/'
  | 'b' => some '\x08'
  | 'f' => some '\x0c'
  | 'n' => some '\n'
  | 'r' => some '\r'
  | 't' => some '\t'
  | _ => none

def isHighSurrogate (unit : Nat) : Bool := 0xD800 ≤ unit && unit < 0xDC00

def isLowSurrogate (unit : Nat) : Bool := 0xDC00 ≤ unit && unit < 0xE000

/-- Joins the units of a string to characters: a high surrogate and the low one behind it make one
character, and neither stands for one alone. -/
def joinSurrogates : List Nat → Option (List Char)
  | [] => some []
  | high :: low :: units =>
    if isHighSurrogate high then
      if isLowSurrogate low then
        (joinSurrogates units).map
          (.ofNat (0x10000 + (high - 0xD800) * 0x400 + (low - 0xDC00)) :: ·)
      else none
    else if isLowSurrogate high then none
    else (joinSurrogates (low :: units)).map (.ofNat high :: ·)
  | [unit] =>
    if isHighSurrogate unit || isLowSurrogate unit then none else some [.ofNat unit]

/-- Reads a string behind its opening quote: its characters, each by its number, and units written
as escapes. `fuel` bounds the number of characters. -/
def readUnits : (fuel : Nat) → List Char → List Nat → Option (List Nat × List Char)
  | 0, _, _ => none
  | _ + 1, [], _ => none
  | _ + 1, '"' :: rest, read => some (read.reverse, rest)
  | fuel + 1, '\\' :: 'u' :: rest, read => do
    let (unit, rest) ← readUnit rest
    readUnits fuel rest (unit :: read)
  | fuel + 1, '\\' :: c :: rest, read => do
    let c ← escaped? c
    readUnits fuel rest (c.toNat :: read)
  | fuel + 1, c :: rest, read =>
    if c.toNat < 0x20 || c = '\\' then none else readUnits fuel rest (c.toNat :: read)

def readString (text : List Char) : Option (Option String × List Char) := do
  let (units, rest) ← readUnits (text.length + 1) text []
  pure ((joinSurrogates units).map String.ofList, rest)

def readDigits (text : List Char) : Option (List Char × List Char) :=
  let digits := text.takeWhile Char.isDigit
  if digits.isEmpty then none else some (digits, text.dropWhile Char.isDigit)

/-- Reads the digits before the point. A zero stands alone. -/
def readWhole : List Char → Option (List Char × List Char)
  | '0' :: rest => some (['0'], rest)
  | text => readDigits text

def readFraction : List Char → Option (List Char × List Char)
  | '.' :: rest => do
    let (digits, rest) ← readDigits rest
    pure ('.' :: digits, rest)
  | text => some ([], text)

def readExponent : List Char → Option (List Char × List Char)
  | mark :: rest =>
    if mark = 'e' || mark = 'E' then do
      let (sign, rest) := match rest with
        | '+' :: rest => (['+'], rest)
        | '-' :: rest => (['-'], rest)
        | rest => ([], rest)
      let (digits, rest) ← readDigits rest
      pure (mark :: sign ++ digits, rest)
    else some ([], mark :: rest)
  | [] => some ([], [])

def readNumber (text : List Char) : Option (String × List Char) := do
  let (sign, rest) := match text with
    | '-' :: rest => (['-'], rest)
    | rest => ([], rest)
  let (whole, rest) ← readWhole rest
  let (fraction, rest) ← readFraction rest
  let (exponent, rest) ← readExponent rest
  pure (String.ofList (sign ++ whole ++ fraction ++ exponent), rest)

mutual

/-- Reads a document and the blanks around it. `fuel` bounds the number of readings. -/
def readValue (fuel : Nat) (text : List Char) : Option (Json × List Char) :=
  match fuel with
  | 0 => none
  | fuel + 1 => do
    let (value, rest) ← match skipBlanks text with
      | '\x7b' :: rest =>
        match skipBlanks rest with
        | '\x7d' :: rest => some (.object [], rest)
        | rest => (readMembers fuel rest []).map fun (members, rest) => (.object members, rest)
      | '[' :: rest =>
        match skipBlanks rest with
        | ']' :: rest => some (.array [], rest)
        | rest => (readElements fuel rest []).map fun (elements, rest) => (.array elements, rest)
      | '"' :: rest => (readString rest).map fun (text, rest) => (.string text, rest)
      | 't' :: 'r' :: 'u' :: 'e' :: rest => some (.bool true, rest)
      | 'f' :: 'a' :: 'l' :: 's' :: 'e' :: rest => some (.bool false, rest)
      | 'n' :: 'u' :: 'l' :: 'l' :: rest => some (.null, rest)
      | rest => (readNumber rest).map fun (text, rest) => (.number text, rest)
    pure (value, skipBlanks rest)

/-- Reads the elements of an array, at least one, and its closing bracket. -/
def readElements (fuel : Nat) (text : List Char) (read : List Json) :
    Option (List Json × List Char) :=
  match fuel with
  | 0 => none
  | fuel + 1 => do
    let (value, rest) ← readValue fuel text
    match rest with
    | ',' :: rest => readElements fuel rest (value :: read)
    | ']' :: rest => pure ((value :: read).reverse, rest)
    | _ => none

/-- Reads the members of an object, at least one, and its closing brace. -/
def readMembers (fuel : Nat) (text : List Char) (read : List (Option String × Json)) :
    Option (List (Option String × Json) × List Char) :=
  match fuel with
  | 0 => none
  | fuel + 1 =>
    match skipBlanks text with
    | '"' :: rest => do
      let (key, rest) ← readString rest
      match skipBlanks rest with
      | ':' :: rest => do
        let (value, rest) ← readValue fuel rest
        match rest with
        | ',' :: rest => readMembers fuel rest ((key, value) :: read)
        | '\x7d' :: rest => pure (((key, value) :: read).reverse, rest)
        | _ => none
      | _ => none
    | _ => none

end

/-- Reads a whole text as one document. Every reading uses up a character, so their number is
bounded by the length of the text. -/
def read? (text : String) : Option Json :=
  match readValue (2 * text.length + 2) text.toList with
  | some (value, []) => some value
  | _ => none

/-- A character as it stands in a string. Marks and control characters need an escape. -/
def escape (c : Char) : List Char :=
  match c with
  | '"' => ['\\', '"']
  | '\\' => ['\\', '\\']
  | '\x08' => ['\\', 'b']
  | '\x0c' => ['\\', 'f']
  | '\n' => ['\\', 'n']
  | '\r' => ['\\', 'r']
  | '\t' => ['\\', 't']
  | c =>
    if c.toNat < 0x20 then
      ['\\', 'u', '0', '0', Nat.digitChar (c.toNat / 16), Nat.digitChar (c.toNat % 16)]
    else [c]

/-- A string between its quotes. One that has no text is written as an empty one. -/
def writeString (s : Option String) : List Char :=
  '"' :: (s.getD "").toList.flatMap escape ++ ['"']

mutual

def write : Json → List Char
  | .null => ['n', 'u', 'l', 'l']
  | .bool true => ['t', 'r', 'u', 'e']
  | .bool false => ['f', 'a', 'l', 's', 'e']
  | .number text => text.toList
  | .string s => writeString s
  | .array elements => '[' :: [','].intercalate (writeElements elements) ++ [']']
  | .object members => '\x7b' :: [','].intercalate (writeMembers members) ++ ['\x7d']

def writeElements : List Json → List (List Char)
  | [] => []
  | value :: rest => value.write :: writeElements rest

def writeMembers : List (Option String × Json) → List (List Char)
  | [] => []
  | (key, value) :: rest => (writeString key ++ ':' :: value.write) :: writeMembers rest

end

def text (value : Json) : String := String.ofList value.write

end Json

end FuzzyInference
