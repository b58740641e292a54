import FuzzyInference.Json
import FuzzyInference.Number.Binary64
import FuzzyInference.Serialization

/-!
# JSON as a format

Records and variants as JSON documents.

* `Json.readRecord?`, `Json.readTagged?`: read them. Members with other names are passed over, and
  an object may also be given as an array of its values, in order;
* `Json.isPlain`: the strictness asked of variants, though not of what is passed over;
* JSON documents are a format to serialize in.
-/

namespace FuzzyInference

namespace Json

mutual

def depth : Json → Nat
  | .array elements => depthOfElements elements + 1
  | .object members => depthOfMembers members + 1
  | .null | .bool _ | .number _ | .string _ => 0

def depthOfElements : List Json → Nat
  | [] => 0
  | value :: rest => max value.depth (depthOfElements rest)

def depthOfMembers : List (Option String × Json) → Nat
  | [] => 0
  | (_, value) :: rest => max value.depth (depthOfMembers rest)

end

/-- How deep variants may be nested, with the record around them. -/
def maxDepth : Nat := 127

mutual

/-- Every string has a text, and no number is too large for binary64. -/
def isPlain : Json → Bool
  | .number text => ((Numeral.read? text).map (·.toBinary64.isFinite)).getD false
  | .string text => text.isSome
  | .array elements => elementsArePlain elements
  | .object members => membersArePlain members
  | .null | .bool _ => true

def elementsArePlain : List Json → Bool
  | [] => true
  | value :: rest => value.isPlain && elementsArePlain rest

def membersArePlain : List (Option String × Json) → Bool
  | [] => true
  | (key, value) :: rest => key.isSome && value.isPlain && membersArePlain rest

end

def membersAt (key : String) (members : List (Option String × Json)) : List Json :=
  (members.filter (·.1 = some key)).map (·.2)

/-- An object with texts for its keys. -/
def ofMembers (members : List (String × Json)) : Json :=
  .object (members.map fun m => (some m.1, m.2))

/-- A count is written without sign, point and exponent. -/
def ofCount (n : UInt64) : Json := .number (String.ofList (Nat.toDigits 10 n.toNat))

def readCount? : Json → Option UInt64
  | .number text =>
    let count := Numeral.ofDigits text.toList
    if text.toList.all Char.isDigit && count < UInt64.size then some (.ofNat count) else none
  | _ => none

section

variable {β ν : Type}

/-- Reads the values given for a field. There is at most one, and the default counts without. -/
def readField? (field : OptionalField β) (read? : Json → Option β) : List Json → Option β
  | [] => some field.default
  | [value] => read? value
  | _ => none

def readRecord? (field : OptionalField β) (read? : Json → Option β) : Json → Option β
  | .object members =>
    if members.all (·.1.isSome) then readField? field read? (membersAt field.name members)
    else none
  | .array elements => readField? field read? elements
  | _ => none

/-- Reads the variant that is named. There is exactly one name. -/
def readVariant? (t : Tagging ν) : List Json → Option ν
  | [.string (some name)] => t.ofName? name
  | _ => none

/-- Reads a variant by the values given for its tag and for its field. -/
def readParts? (t : Tagging ν) (tags counts : List Json) : Option (ν × UInt64) := do
  let variant ← readVariant? t tags
  let count ← readField? t.field readCount? counts
  pure (variant, count)

def readTagged? (t : Tagging ν) (value : Json) : Option (ν × UInt64) :=
  if !value.isPlain || maxDepth ≤ value.depth then none
  else match value with
    | .object members => readParts? t (membersAt t.tag members) (membersAt t.field.name members)
    | .array elements => readParts? t (elements.take 1) (elements.drop 1)
    | _ => none

end

end Json

instance : Serialization Json where
  string s := .string (some s)
  count := Json.ofCount
  object := Json.ofMembers
  text := Json.text
  read? := Json.read?
  writeRecord field write value := Json.ofMembers [(field.name, write value)]
  readRecord? := Json.readRecord?
  writeTagged t value := Json.ofMembers
    [(t.tag, .string (some (t.rename value.1))), (t.field.name, Json.ofCount value.2)]
  readTagged? := Json.readTagged?

end FuzzyInference
