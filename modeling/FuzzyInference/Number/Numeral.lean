/-!
# Written numbers

A number as it stands in a text: a sign if wanted, then decimal digits with at most one point
and an exponent, or one of the words for infinity and for an undefined result.

* `Numeral`: what the text says, before anything is rounded;
* `Numeral.read?`: the reading of a whole text, `none` where it is no number.
-/

namespace FuzzyInference

/-- What a written number says. `decimal n d e` stands for `d * 10 ^ e`, negated if `n`. -/
inductive Numeral where
  | decimal (negative : Bool) (digits : Nat) (exponent : Int)
  | infinity (negative : Bool)
  | undefined
  deriving DecidableEq, Repr

namespace Numeral

/-- The number a run of decimal digits stands for. -/
def ofDigits (digits : List Char) : Nat :=
  digits.foldl (fun n c => 10 * n + (c.toNat - '0'.toNat)) 0

/-- Takes a sign off the front. A text without one is positive. -/
def splitSign : List Char → Bool × List Char
  | '-' :: rest => (true, rest)
  | '+' :: rest => (false, rest)
  | rest => (false, rest)

/-- The exponent behind the digits: nothing at all, or `e` and a signed run of digits. -/
def readExponent? : List Char → Option Int
  | [] => some 0
  | mark :: rest =>
    let (negative, digits) := splitSign rest
    if mark.toLower = 'e' && !digits.isEmpty && digits.all Char.isDigit then
      some (if negative then -(ofDigits digits : Int) else ofDigits digits)
    else none

/-- The digits on both sides of the point and what follows them. Without a point, what follows
the first run of digits. -/
def splitFraction (text : List Char) : List Char × List Char × List Char :=
  let whole := text.takeWhile Char.isDigit
  match text.dropWhile Char.isDigit with
  | '.' :: rest => (whole, rest.takeWhile Char.isDigit, rest.dropWhile Char.isDigit)
  | rest => (whole, [], rest)

/-- Reads an unsigned decimal. A point alone has no digit and is no number. -/
def readDecimal? (negative : Bool) (text : List Char) : Option Numeral :=
  let (whole, fraction, rest) := splitFraction text
  if whole.isEmpty && fraction.isEmpty then none
  else (readExponent? rest).map fun e =>
    .decimal negative (ofDigits (whole ++ fraction)) (e - fraction.length)

/-- Reads a whole text as a number. The words may be in either case. -/
def read? (text : String) : Option Numeral :=
  let (negative, body) := splitSign text.toList
  let word := String.ofList (body.map Char.toLower)
  if word = "inf" || word = "infinity" then some (.infinity negative)
  else if word = "nan" then some .undefined
  else readDecimal? negative body

end Numeral

end FuzzyInference
