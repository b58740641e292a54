import FuzzyInference.Text.Hidden

/-!
# Quoted text

* `quote`: a text between double quotes, with escapes for the quotes and backslashes in it and for
  characters that do not show.
-/

namespace FuzzyInference

namespace Text

/-- The number of a character in lower-case hexadecimal digits. -/
def hexNumber (c : Char) : String := String.ofList (Nat.toDigits 16 c.toNat)

def quoteChar (c : Char) : String :=
  match c with
  | '\x00' => "\\0"
  | '\t' => "\\t"
  | '\r' => "\\r"
  | '\n' => "\\n"
  | '"' => "\\\""
  | '\\' => "\\\\"
  | c => if isHidden c then "\\u\x7b" ++ hexNumber c ++ "\x7d" else c.toString

def quote (text : String) : String :=
  "\"" ++ String.join (text.toList.map quoteChar) ++ "\""

end Text

end FuzzyInference
