/-!
# Serialization

What is asked of a library that writes values as documents and reads them back. How a type is
written is said by its attributes: a tag with a name for each of its variants, further names to
read, and what counts where a field is left out.

* `OptionalField`, `Tagging`: the attributes of a field, and of variants;
* `Serialization`: a library, for documents of one format;
* `LawfulSerialization`: what it makes of the attributes, and of a document as text.
-/

namespace FuzzyInference

/-! ## Attributes -/

/-- A field that may be left out of a document. -/
structure OptionalField (β : Type) where
  name : String
  default : β

/-- Variants that have one field in common. In a document the member `tag` tells them apart: there
a variant is written under its name, and read under that name and the aliases. -/
structure Tagging (ν : Type) where
  tag : String
  field : OptionalField UInt64
  variants : List ν
  rename : ν → String
  aliases : ν → List String
  apart : field.name ≠ tag
  complete : ∀ v, v ∈ variants
  unambiguous : ∀ v w name,
    name ∈ rename v :: aliases v → name ∈ rename w :: aliases w → v = w

namespace Tagging

variable {ν : Type} (t : Tagging ν)

def names (v : ν) : List String := t.rename v :: t.aliases v

def ofName? (name : String) : Option ν := t.variants.find? fun v => name ∈ t.names v

theorem ofName?_eq_some_iff {name : String} {v : ν} :
    t.ofName? name = some v ↔ name ∈ t.names v := by
  have named_of_found {w : ν} (found : t.ofName? name = some w) : name ∈ t.names w := by
    rw [ofName?] at found
    simpa using List.find?_some found
  refine ⟨named_of_found, fun named => ?_⟩
  cases found : t.ofName? name with
  | none => exact absurd named (by simpa using List.find?_eq_none.1 found v (t.complete v))
  | some w => rw [t.unambiguous w v name (named_of_found found) named]

theorem ofName?_rename (v : ν) : t.ofName? (t.rename v) = some v :=
  t.ofName?_eq_some_iff.2 List.mem_cons_self

theorem ofName?_eq_none {name : String} (unknown : ∀ v, name ∉ t.names v) :
    t.ofName? name = none := by
  refine List.find?_eq_none.2 fun v _ => ?_
  simpa using unknown v

end Tagging

/-! ## Libraries -/

/-- A library that writes values as documents of the format `δ`, and documents as texts. -/
class Serialization (δ : Type) where
  string : String → δ
  count : UInt64 → δ
  object : List (String × δ) → δ
  text : δ → String
  read? : String → Option δ
  /-- Writes a record with one field, which has a writer of its own. -/
  writeRecord {β : Type} (field : OptionalField β) (write : β → δ) (value : β) : δ
  readRecord? {β : Type} (field : OptionalField β) (read? : δ → Option β) (document : δ) : Option β
  /-- Writes a variant and the value of its field. -/
  writeTagged {ν : Type} (t : Tagging ν) (value : ν × UInt64) : δ
  readTagged? {ν : Type} (t : Tagging ν) (document : δ) : Option (ν × UInt64)

namespace Serialization

variable {δ ν : Type} [Serialization δ]

/-- A document with a name under the tag, and a value for the field. -/
def tagged (t : Tagging ν) (name : String) (n : UInt64) : δ :=
  object [(t.tag, string name), (t.field.name, count n)]

/-- Documents nested at most so deep, with no key twice in an object. -/
inductive Nested : Nat → δ → Prop
  | string (depth : Nat) (s : String) : Nested depth (string s)
  | count (depth : Nat) (n : UInt64) : Nested depth (count n)
  | object (depth : Nat) (members : List (String × δ)) (distinct : (members.map (·.1)).Nodup)
      (nested : ∀ member ∈ members, Nested depth member.2) : Nested (depth + 1) (object members)

end Serialization

open Serialization

/-- What a library makes of a text, and of each of the attributes. -/
class LawfulSerialization (δ : Type) [Serialization δ] : Prop where
  /-- A text is read as the document that it was written from, unless that is nested too deep. -/
  read?_text {document : δ} (nested : Nested 127 document) :
    read? (text document) = some document
  writeRecord_eq {β : Type} (field : OptionalField β) (write : β → δ) (value : β) :
    writeRecord field write value = object [(field.name, write value)]
  readRecord?_object {β : Type} (field : OptionalField β) (read : δ → Option β) (document : δ) :
    readRecord? field read (object [(field.name, document)]) = read document
  readRecord?_default {β : Type} (field : OptionalField β) (read : δ → Option β) :
    readRecord? field read (object []) = some field.default
  writeTagged_eq {ν : Type} (t : Tagging ν) (v : ν) (n : UInt64) :
    (writeTagged t (v, n) : δ) = tagged t (t.rename v) n
  readTagged?_rename {ν : Type} (t : Tagging ν) (v : ν) (n : UInt64) :
    readTagged? t (tagged t (t.rename v) n : δ) = some (v, n)
  readTagged?_alias {ν : Type} (t : Tagging ν) (v : ν) (n : UInt64) {name : String}
      (other : name ∈ t.aliases v) :
    readTagged? t (tagged t name n : δ) = some (v, n)
  readTagged?_unknown {ν : Type} (t : Tagging ν) (n : UInt64) {name : String}
      (unknown : ∀ v, name ∉ t.names v) :
    readTagged? t (tagged t name n : δ) = none
  readTagged?_default {ν : Type} (t : Tagging ν) (v : ν) :
    readTagged? t (object [(t.tag, string (t.rename v))] : δ) = some (v, t.field.default)

end FuzzyInference
