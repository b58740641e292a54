import FuzzyInference.Defuzzification.Basic
import FuzzyInference.Text.Blank

/-!
# Written defuzzifications

A method and its number of steps as one text, `centroid:100`.

* `Defuzzification.text`: writes it;
* `Defuzzification.ofText`: reads it. The steps may be left out, blanks may stand around either
  part, and a method may have either case.
-/

namespace FuzzyInference

structure InvalidDefuzzification where
  text : String
  deriving DecidableEq, Repr

def InvalidDefuzzification.message (e : InvalidDefuzzification) : String :=
  "invalid defuzzification '" ++ e.text ++ "', expected centroid[:steps] or mean-max[:steps]"

namespace Method

def name : Method → String
  | centroid => "centroid"
  | meanOfMaximum => "mean-max"

/-- The method of that name. The mean of maximum has a second name. -/
def ofName? (name : String) : Option Method :=
  if name = "centroid" then some centroid
  else if name = "mean-max" || name = "mean-of-maximum" then some meanOfMaximum
  else none

end Method

namespace Defuzzification

def text (d : Defuzzification) : String :=
  d.method.name ++ ":" ++ toString d.steps.toNat

/-- Reads a count below `2 ^ 64`: decimal digits, perhaps behind a plus sign. -/
def readSteps? (text : List Char) : Option UInt64 :=
  let digits := match text with
    | '+' :: digits => digits
    | digits => digits
  let count := Numeral.ofDigits digits
  if !digits.isEmpty && digits.all Char.isDigit && count < UInt64.size then some (.ofNat count)
  else none

/-- Reads the part behind the first colon. Without a colon, the default counts. -/
def readStepsPart? : List Char → Option UInt64
  | [] => some defaultSteps
  | _ :: steps => readSteps? (Text.trim steps)

def ofText (text : String) : Except InvalidDefuzzification Defuzzification :=
  let method := text.toList.takeWhile (· ≠ ':')
  let steps := text.toList.dropWhile (· ≠ ':')
  match Method.ofName? (String.ofList (Text.trim method)).toLower, readStepsPart? steps with
  | some method, some steps => .ok ⟨method, steps⟩
  | _, _ => .error ⟨text⟩

end Defuzzification

end FuzzyInference
