import FuzzyInference.Language.Cursor
import FuzzyInference.Text.Quoted
import Std.Data.TreeMap.Basic

/-!
# Function tables

Which functions a source may use to describe a fuzzy set, and how their arguments are read.

* `FunctionReader`: reads what follows the name of a function;
* `FunctionTable`: readers by name, whatever the case of its ASCII letters;
* `readFuzzySet`: a function name and its arguments, which describe a fuzzy set;
* `BuiltIn`: the functions of the language itself, and `FunctionTable.standard`, the table of
  them.
-/

namespace FuzzyInference

/-- Reads what follows the name of a function, which the cursor stands right behind. `operand`
reads a fuzzy set at the cursor or at a later one. -/
def FunctionReader (α : Type) : Type :=
  (c : Cursor) → (operand : (d : Cursor) → d.Follows c → Reply d (FuzzySet α)) →
    Reply c (FuzzySet α)

/-- Readers by the upper-case name of their function. -/
structure FunctionTable (α : Type) where
  entries : Std.TreeMap String (FunctionReader α)

namespace FunctionTable

variable {α : Type}

def empty : FunctionTable α := ⟨∅⟩

/-- Puts a reader in. It takes the place of an earlier one of that name. -/
def register (table : FunctionTable α) (name : String) (reader : FunctionReader α) :
    FunctionTable α :=
  ⟨table.entries.insert name.toUpper reader⟩

def find? (table : FunctionTable α) (name : String) : Option (FunctionReader α) :=
  table.entries[name.toUpper]?

def contains (table : FunctionTable α) (name : String) : Bool :=
  table.entries.contains name.toUpper

def names (table : FunctionTable α) : List String := table.entries.keys

def summary (table : FunctionTable α) : String :=
  "[" ++ ", ".intercalate (table.names.map Text.quote) ++ "]"

end FunctionTable

/-- Reads a function name and hands on to the reader of that name. A name that is not in the table
is used up. -/
def readFuzzySet {α : Type} (table : FunctionTable α) (c : Cursor) : Reply c (FuzzySet α) :=
  if h : c.rest = [] then .error c ⟨.missingFunction, c.position⟩
  else
    let name := c.rest.head h
    match table.find? name.text with
    | some reader =>
      let operand (d : Cursor) (later : d.Follows c.advance) :=
        have := later.length_lt h
        readFuzzySet table d
      (reader c.advance operand).since c.advance_follows
    | none =>
      (Reply.error c.advance ⟨.unknownFunction name.text, name.position⟩).since c.advance_follows
  termination_by c.rest.length

inductive BuiltIn where
  | linear
  | triangular
  | trapezoid
  | inverted
  deriving DecidableEq, Repr

namespace BuiltIn

variable {α : Type} [Scalar α]

def all : List BuiltIn := [linear, triangular, trapezoid, inverted]

/-- The name of a function. Its messages use it whatever name the function is registered under. -/
def name : BuiltIn → String
  | linear => "LINEAR"
  | triangular => "TRIANGULAR"
  | trapezoid => "TRAPEZOID"
  | inverted => "INVERTED"

/-- Reads one fuzzy set in parentheses and inverts it. -/
def readInverted : FunctionReader α := fun c operand =>
  (Reading.expect .openParen (.unopenedArguments inverted.name) c).andThen fun _ d h =>
    (operand d h).andThen fun m e _ =>
      (Reading.expect .closeParen (.unclosedOperand inverted.name) e).map fun _ => .inverted m

def reader : BuiltIn → FunctionReader α
  | linear => fun c _ =>
    (Reading.arguments linear.name 2 c).map fun xs => .ramp xs[0] xs[1]
  | triangular => fun c _ =>
    (Reading.arguments triangular.name 3 c).map fun xs => .triangular xs[0] xs[1] xs[2]
  | trapezoid => fun c _ =>
    (Reading.arguments trapezoid.name 4 c).map fun xs => .trapezoid xs[0] xs[1] xs[2] xs[3]
  | inverted => readInverted

end BuiltIn

namespace FunctionTable

variable {α : Type} [Scalar α]

/-- The table with these built-in functions, each under the name beside it. -/
def ofBuiltIns (entries : List (String × BuiltIn)) : FunctionTable α :=
  entries.foldl (fun table (name, function) => table.register name function.reader) empty

/-- The table of the built-in functions under their own names. -/
def standard : FunctionTable α := ofBuiltIns (BuiltIn.all.map fun f => (f.name, f))

end FunctionTable

end FuzzyInference
