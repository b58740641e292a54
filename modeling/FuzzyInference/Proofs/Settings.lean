import FuzzyInference.Config
import FuzzyInference.Proofs.JsonTexts
import FuzzyInference.Proofs.WrittenMethods

/-!
# Settings are read back

The settings of an engine are read back from their own text, in every format with the laws of a
serialization, and a defuzzification from its own.

* `EngineConfig.toDocument_eq`: the document of settings, by the attributes;
* `EngineConfig.read?_tagged`: settings are read by exactly the names that a text may have for a
  method;
* `EngineConfig.read?_text`, `written_settings`: what is written is read back.
-/

namespace FuzzyInference

open Serialization LawfulSerialization

/-! ## Names of methods -/

namespace Method

theorem mem_names_iff {m : Method} {name : String} :
    name ∈ tagging.names m ↔ ofName? name = some m := by
  cases m <;> grind [Tagging.names, tagging, ofName?]

theorem ofName?_name (m : Method) : ofName? m.name = some m := by
  cases m <;> rfl

theorem rename_eq_name (m : Method) : tagging.rename m = m.name := by
  cases m <;> rfl

end Method

/-! ## Documents -/

section

variable {δ ν : Type} [Serialization δ]

/-- A document with nothing but the tag. -/
def tagAlone (t : Tagging ν) (name : String) : δ := object [(t.tag, string name)]

/-- A document with the setting under its name. -/
def settings (document : δ) : δ := object [(EngineConfig.field.name, document)]

/-- Nothing in a document of settings is nested deeper than in the setting. -/
theorem nested_settings {depth : Nat} {document : δ} (h : Nested depth document) :
    Nested (depth + 1) (settings document) := by
  refine .object depth _ (by simp) fun member among => ?_
  obtain rfl := List.mem_singleton.1 among
  exact h

theorem nested_tagged (t : Tagging ν) (name : String) (n : UInt64) (depth : Nat) :
    Nested (depth + 1) (tagged t name n : δ) := by
  refine .object depth _ (by simp [t.apart.symm]) fun member among => ?_
  rcases List.mem_pair.1 among with rfl | rfl
  · exact .string depth name
  · exact .count depth n

theorem nested_tagAlone (t : Tagging ν) (name : String) (depth : Nat) :
    Nested (depth + 1) (tagAlone t name : δ) := by
  refine .object depth _ (by simp) fun member among => ?_
  obtain rfl := List.mem_singleton.1 among
  exact .string depth name

variable [LawfulSerialization δ]

/-- A tagged document is read by any of the names of a variant, and by no other. -/
theorem readTagged?_tagged (t : Tagging ν) (name : String) (n : UInt64) :
    readTagged? t (tagged t name n : δ) = (t.ofName? name).map (·, n) := by
  cases found : t.ofName? name with
  | none =>
    refine readTagged?_unknown t n fun v named => ?_
    rw [t.ofName?_eq_some_iff.2 named] at found
    cases found
  | some v =>
    rcases List.mem_cons.1 (t.ofName?_eq_some_iff.1 found) with rfl | other
    · exact readTagged?_rename t v n
    · exact readTagged?_alias t v n other

namespace EngineConfig

theorem toDocument_eq (config : EngineConfig) :
    (config.toDocument : δ) = settings (tagged Method.tagging config.defuzzification.method.name
      config.defuzzification.steps) := by
  rw [toDocument, writeRecord_eq, writeTagged_eq, Method.rename_eq_name, settings]

/-- The names to read are those that a text may have for a method. -/
theorem ofDocument?_tagged (name : String) (n : UInt64) :
    ofDocument? (settings (tagged Method.tagging name n) : δ) =
      (Method.ofName? name).map fun m => ⟨m, n⟩ := by
  have same : Method.tagging.ofName? name = Method.ofName? name := by
    ext m
    rw [Tagging.ofName?_eq_some_iff, Method.mem_names_iff]
  rw [ofDocument?, settings, readRecord?_object, readTagged?_tagged, same]
  cases Method.ofName? name <;> rfl

/-- Settings are read from a text as from the document written there. -/
theorem read?_text_of {document : δ} (nested : Nested 127 document) :
    read? δ (Serialization.text document) = ofDocument? document := by
  rw [read?, LawfulSerialization.read?_text nested]
  rfl

theorem read?_tagged (name : String) (n : UInt64) :
    read? δ (Serialization.text (settings (tagged Method.tagging name n) : δ)) =
      (Method.ofName? name).map fun m => ⟨m, n⟩ := by
  rw [read?_text_of (nested_settings (nested_tagged Method.tagging name n 125)),
    ofDocument?_tagged]

/-- Without a number of steps the default counts. -/
theorem read?_tagAlone (m : Method) :
    read? δ (Serialization.text (settings (tagAlone Method.tagging m.name) : δ)) =
      some ⟨m, Defuzzification.defaultSteps⟩ := by
  rw [read?_text_of (nested_settings (nested_tagAlone Method.tagging m.name 125)), ofDocument?,
    settings, readRecord?_object, tagAlone, ← Method.rename_eq_name, readTagged?_default]
  rfl

theorem read?_empty : read? δ (Serialization.text (object [] : δ)) = some standard := by
  rw [read?_text_of (.object 126 [] List.nodup_nil nofun), ofDocument?, readRecord?_default]
  rfl

theorem read?_text (config : EngineConfig) : read? δ (config.text δ) = some config := by
  rw [text, toDocument_eq, read?_tagged, Method.ofName?_name]
  rfl

end EngineConfig

end

/-- A text says a defuzzification exactly where it has the form, and is refused as it stands
elsewhere. What is written of a defuzzification or of settings is read back as the same, in every
format to serialize in. Settings are read by the names that a text may have for a method. Where
they leave out the steps, or everything, the defaults count. -/
theorem written_settings (δ : Type) [Serialization δ] [LawfulSerialization δ] :
    (∀ s d, Defuzzification.ofText s = .ok d ↔ Defuzzification.Describes s.toList d) ∧
      (∀ s, Defuzzification.ofText s = .error ⟨s⟩ ↔
        ∀ d, ¬ Defuzzification.Describes s.toList d) ∧
      (∀ d : Defuzzification, Defuzzification.ofText d.text = .ok d) ∧
      (∀ config : EngineConfig, EngineConfig.read? δ (config.text δ) = some config) ∧
      (∀ name n, EngineConfig.read? δ
        (Serialization.text (settings (tagged Method.tagging name n) : δ)) =
          (Method.ofName? name).map fun m => ⟨m, n⟩) ∧
      (∀ m : Method, EngineConfig.read? δ
        (Serialization.text (settings (tagAlone Method.tagging m.name) : δ)) =
          some ⟨m, Defuzzification.defaultSteps⟩) ∧
      EngineConfig.read? δ (Serialization.text (object [] : δ)) = some .standard := by
  refine ⟨fun s d => Defuzzification.ofText_eq_ok_iff, fun s => Defuzzification.ofText_eq_error_iff,
    fun d => ?_, EngineConfig.read?_text, EngineConfig.read?_tagged,
    EngineConfig.read?_tagAlone, EngineConfig.read?_empty⟩
  exact Defuzzification.ofText_eq_ok_iff.2 (Defuzzification.describes_text d)

theorem written_settings_json :
    EngineConfig.text Json ⟨.meanOfMaximum, 250⟩ =
        "\x7b\"defuzzification\":\x7b\"method\":\"mean-max\",\"steps\":250\x7d\x7d" ∧
      EngineConfig.read? Json (EngineConfig.text Json ⟨.meanOfMaximum, 250⟩) =
        some ⟨.meanOfMaximum, 250⟩ := by
  obtain ⟨_, _, _, readBack, _⟩ := written_settings Json
  exact ⟨by decide, readBack ⟨.meanOfMaximum, 250⟩⟩

end FuzzyInference
