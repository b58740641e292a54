import FuzzyInference.Defuzzification.Text
import FuzzyInference.Serialization

/-!
# Engine settings

The settings of an engine, as a record to serialize.

* `Method.tagging`, `EngineConfig.field`: how methods are named in a document, and what counts
  where something is left out;
* `EngineConfig.toDocument`, `EngineConfig.ofDocument?`: settings as a document;
* `EngineConfig.text`, `EngineConfig.read?`: settings as a text.
-/

namespace FuzzyInference

def Defuzzification.stepsField : OptionalField UInt64 := ⟨"steps", Defuzzification.defaultSteps⟩

/-- Methods have names of their own in a document. -/
def Method.tagging : Tagging Method where
  tag := "method"
  field := Defuzzification.stepsField
  variants := [centroid, meanOfMaximum]
  rename
    | centroid => "centroid"
    | meanOfMaximum => "mean-max"
  aliases
    | centroid => []
    | meanOfMaximum => ["mean-of-maximum"]
  apart := by decide
  complete m := by cases m <;> decide
  unambiguous v w := by cases v <;> cases w <;> decide

structure EngineConfig where
  defuzzification : Defuzzification
  deriving DecidableEq, Repr

namespace EngineConfig

/-- The settings where none are given. -/
def standard : EngineConfig := ⟨.centroid, Defuzzification.defaultSteps⟩

def field : OptionalField Defuzzification := ⟨"defuzzification", standard.defuzzification⟩

section

variable {δ : Type} [Serialization δ]

def toDocument (config : EngineConfig) : δ :=
  Serialization.writeRecord field
    (fun d => Serialization.writeTagged Method.tagging (d.method, d.steps)) config.defuzzification

def ofDocument? (document : δ) : Option EngineConfig := do
  let defuzzification ← Serialization.readRecord? field (fun document => do
    let (method, steps) ← Serialization.readTagged? Method.tagging document
    pure ⟨method, steps⟩) document
  pure ⟨defuzzification⟩

end

variable (δ : Type) [Serialization δ]

/-- The settings as a text, in the format `δ`. -/
def text (config : EngineConfig) : String := Serialization.text (config.toDocument : δ)

def read? (text : String) : Option EngineConfig := do
  let document : δ ← Serialization.read? text
  ofDocument? document

end EngineConfig

end FuzzyInference
