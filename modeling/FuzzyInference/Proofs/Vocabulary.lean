import FuzzyInference.Language.FunctionTable
import Mathlib.Data.List.Induction
import Std.Data.TreeMap.Lemmas

/-!
# Reserved words and function names

* `TokenKind.ofText_eq_iff`: a word is of a reserved kind when it is the word of that kind in some
  case;
* `FunctionTable.find?_ofBuiltIns`: a look-up finds the last reader put in under the name;
* `FunctionTable.find?_standard_iff`: the standard table has the four built-in functions and no
  other.
-/

namespace FuzzyInference

namespace TokenKind

theorem ofText_eq_iff {kind : TokenKind} (reserved : kind ≠ identifier) {word : String} :
    ofText word = kind ↔ word.toUpper = kind.text := by
  constructor
  · intro h
    unfold ofText at h
    cases found : TokenKind.reserved.find? (·.text = word.toUpper) with
    | none => rw [found] at h; exact absurd h.symm reserved
    | some k =>
      have same := List.find?_some found
      rw [found, Option.getD_some] at h
      rw [decide_eq_true_eq, h] at same
      exact same.symm
  · intro h
    unfold ofText
    rw [h]
    cases kind <;> first | contradiction | decide

theorem toUpper_text (kind : TokenKind) (reserved : kind ≠ identifier) :
    kind.text.toUpper = kind.text := by
  cases kind <;> first | contradiction | decide +kernel

/-- The word of a reserved kind is of that kind. -/
theorem ofText_text (kind : TokenKind) (reserved : kind ≠ identifier) : ofText kind.text = kind :=
  (ofText_eq_iff reserved).2 (toUpper_text kind reserved)

theorem ofText_congr {x y : String} (h : x.toUpper = y.toUpper) : ofText x = ofText y := by
  rw [ofText, ofText, h]

end TokenKind

namespace BuiltIn

/-- The kind of the words that name a function. -/
def kind : BuiltIn → TokenKind
  | linear => .linear
  | triangular => .triangular
  | trapezoid => .trapezoid
  | inverted => .inverted

theorem kind_ne_identifier (f : BuiltIn) : f.kind ≠ .identifier := by cases f <;> decide

theorem text_kind (f : BuiltIn) : f.kind.text = f.name := by cases f <;> rfl

theorem toUpper_name (f : BuiltIn) : f.name.toUpper = f.name := by
  rw [← text_kind, TokenKind.toUpper_text f.kind f.kind_ne_identifier]

theorem ofText_eq_kind_iff (f : BuiltIn) {word : String} :
    TokenKind.ofText word = f.kind ↔ word.toUpper = f.name := by
  rw [TokenKind.ofText_eq_iff f.kind_ne_identifier, text_kind]

theorem kind_injective {f g : BuiltIn} (h : f.kind = g.kind) : f = g := by
  cases f <;> cases g <;> simp_all [kind]

end BuiltIn

namespace FunctionTable

variable {α : Type}

@[simp] theorem find?_empty (word : String) : (empty : FunctionTable α).find? word = none := by
  simp [find?, empty]

theorem find?_register (table : FunctionTable α) (name word : String)
    (reader : FunctionReader α) :
    (table.register name reader).find? word =
      if name.toUpper = word.toUpper then some reader else table.find? word := by
  simp [find?, register, Std.TreeMap.getElem?_insert]

theorem find?_congr (table : FunctionTable α) {x y : String} (h : x.toUpper = y.toUpper) :
    table.find? x = table.find? y := by
  rw [find?, find?, h]

variable [Scalar α]

theorem ofBuiltIns_concat (entries : List (String × BuiltIn)) (name : String) (f : BuiltIn) :
    (ofBuiltIns (entries ++ [(name, f)]) : FunctionTable α) =
      (ofBuiltIns entries).register name f.reader := by
  simp [ofBuiltIns, List.foldl_append]

/-- The last entry of a name is the one that is found. -/
theorem find?_ofBuiltIns (entries : List (String × BuiltIn)) (word : String) :
    (ofBuiltIns entries : FunctionTable α).find? word =
      (entries.reverse.find? (·.1.toUpper = word.toUpper)).map (·.2.reader) := by
  induction entries using List.reverseRecOn with
  | nil => exact find?_empty word
  | append_singleton entries e ih =>
    obtain ⟨name, f⟩ := e
    rw [ofBuiltIns_concat, find?_register, ih, List.reverse_concat, List.find?_cons]
    by_cases h : name.toUpper = word.toUpper <;> simp [h]

/-- The readers of the standard table are those of the built-in functions. -/
theorem find?_standard_iff {word : String} {reader : FunctionReader α} :
    (standard : FunctionTable α).find? word = some reader ↔
      ∃ f : BuiltIn, TokenKind.ofText word = f.kind ∧ reader = f.reader := by
  simp only [standard, find?_ofBuiltIns, BuiltIn.ofText_eq_kind_iff, Option.map_eq_some_iff]
  constructor
  · rintro ⟨⟨name, f⟩, found, rfl⟩
    have member := List.mem_of_find?_eq_some found
    have same := List.find?_some found
    simp only [List.mem_reverse, List.mem_map, Prod.mk.injEq] at member
    obtain ⟨g, -, rfl, rfl⟩ := member
    exact ⟨g, by simpa [BuiltIn.toUpper_name, eq_comm] using same, rfl⟩
  · rintro ⟨f, named, rfl⟩
    refine ⟨(f.name, f), ?_, rfl⟩
    cases f <;> simp [BuiltIn.all, BuiltIn.toUpper_name, named] <;> decide

theorem find?_standard_eq_none {word : String} (h : ∀ f : BuiltIn, TokenKind.ofText word ≠ f.kind) :
    (standard : FunctionTable α).find? word = none := by
  cases found : (standard : FunctionTable α).find? word with
  | none => rfl
  | some reader =>
    obtain ⟨f, hf, -⟩ := find?_standard_iff.1 found
    exact absurd hf (h f)

end FunctionTable

section Reading

variable {α : Type} {table : FunctionTable α} {c : Cursor} {name : Token} {ts : List Token}

theorem readFuzzySet_nil (h : c.rest = []) :
    readFuzzySet table c = .error c ⟨.missingFunction, c.position⟩ := by
  rw [readFuzzySet, dif_pos h]

theorem readFuzzySet_known (h : c.rest = name :: ts) {reader : FunctionReader α}
    (found : table.find? name.text = some reader) :
    readFuzzySet table c =
      (reader c.advance fun d _ => readFuzzySet table d).since c.advance_follows := by
  have hne : c.rest ≠ [] := by simp [h]
  have hh : c.rest.head hne = name := by simp [h]
  rw [readFuzzySet, dif_neg hne]
  simp only [hh, found]

theorem readFuzzySet_unknown (h : c.rest = name :: ts) (missing : table.find? name.text = none) :
    readFuzzySet table c =
      (Reply.error c.advance ⟨.unknownFunction name.text, name.position⟩).since
        c.advance_follows := by
  have hne : c.rest ≠ [] := by simp [h]
  have hh : c.rest.head hne = name := by simp [h]
  rw [readFuzzySet, dif_neg hne]
  simp only [hh, missing]

end Reading

end FuzzyInference
