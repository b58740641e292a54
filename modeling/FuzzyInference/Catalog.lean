import FuzzyInference.Variable

/-!
# Catalogs

The variables an engine knows, in the order they came in, no two under one name.

* `Catalog.add`: fails on a name that is taken, and otherwise gives the key of the new entry;
* `Catalog.ofList`: a catalog of the whole list, or the first name in it that is repeated;
* `Catalog.lookup`, `Catalog.key?`: look a variable up by its name;
* `Catalog.entry?`: the variable behind a key. Entries never move, so a key stays good.
-/

namespace FuzzyInference

/-- Two variables of one catalog share a name. -/
structure DuplicateVariable where
  name : String
  deriving DecidableEq, Repr

def DuplicateVariable.message (e : DuplicateVariable) : String :=
  "variable '" ++ e.name ++ "' already exists"

/-- Variables with names of their own. -/
structure Catalog (α : Type) where
  entries : List (Variable α)
  distinct : (entries.map (·.name)).Nodup

namespace Catalog

variable {α : Type}

/-- Stands for one entry of a catalog and of all that come from it by adding more. -/
structure Key where
  index : Nat
  deriving DecidableEq, Repr

def empty : Catalog α := ⟨[], List.nodup_nil⟩

def size (c : Catalog α) : Nat := c.entries.length

def names (c : Catalog α) : List String := c.entries.map (·.name)

theorem nodup_names_concat (c : Catalog α) {v : Variable α} (free : v.name ∉ c.names) :
    ((c.entries ++ [v]).map (·.name)).Nodup := by
  simp only [names] at free
  simp only [List.map_append, List.map_cons, List.map_nil, List.nodup_append]
  refine ⟨c.distinct, by simp, ?_⟩
  intro a ha b hb
  simp only [List.mem_singleton] at hb
  exact fun same => free (hb ▸ same ▸ ha)

/-- Adds a variable behind all others, unless its name is taken. -/
def add (c : Catalog α) (v : Variable α) : Except DuplicateVariable (Catalog α × Key) :=
  if free : v.name ∉ c.names then
    .ok (⟨c.entries ++ [v], c.nodup_names_concat free⟩, ⟨c.size⟩)
  else .error ⟨v.name⟩

def ofList (entries : List (Variable α)) : Except DuplicateVariable (Catalog α) :=
  entries.foldlM (fun c v => (c.add v).map (·.1)) empty

def key? (c : Catalog α) (name : String) : Option Key :=
  (c.entries.findIdx? (·.name = name)).map (⟨·⟩)

def entry? (c : Catalog α) (key : Key) : Option (Variable α) := c.entries[key.index]?

def find? (c : Catalog α) (name : String) : Option (Variable α) :=
  (c.key? name).bind c.entry?

/-- The variable of that name. Without one, the lookup fails. -/
def lookup (c : Catalog α) (name : String) : Except LookupError (Variable α) :=
  match c.find? name with
  | some v => .ok v
  | none => .error (.undefinedVariable name)

end Catalog

end FuzzyInference
