/-!
# Positions

* `Position`: a place in a source text, by line and column, both counted from one. Columns count
  characters.
-/

namespace FuzzyInference

structure Position where
  line : Nat
  column : Nat
  deriving DecidableEq, Repr

namespace Position

def start : Position := ⟨1, 1⟩

def text (p : Position) : String :=
  s!"line {p.line}, column {p.column}"

end Position

end FuzzyInference
