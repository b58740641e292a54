import FuzzyInference.Proofs.Catalogs
import FuzzyInference.Proofs.References
import Mathlib.Data.List.Induction
import Std.Data.TreeMap.Lemmas

/-!
# Catalogs in slots

The variables of a catalog may stand in a store that gives out a key for each of them, with the
keys listed in order and indexed by name beside it. The three stay in agreement, whatever is added
and refused, and nothing tells such a catalog from a list of variables.

* `Slots`, `LawfulSlots`: stores that give out keys, and what is asked of them;
* `SlotCatalog`, `SlotEngine`: the three structures, and an engine over them;
* `Additions`: a catalog with the variables that it took, and their keys;
* `SlotCatalog.Coherent`: the invariant, kept by `Additions.coherent_next`;
* `SlotCatalog.Answers`: what the operations of the catalog say;
* `catalog_of_additions`: what they say after any additions, and what a whole list of variables
  makes of a catalog and of an engine.
-/

namespace FuzzyInference

/-! ## Stores -/

/-- A store that gives out a key for every value it takes. -/
class Slots (σ : Type) (κ β : outParam Type) where
  empty : σ
  insert : σ → β → σ × κ
  get? : σ → κ → Option β
  size : σ → Nat

/-- The key of an insertion was not in use, and no other key is affected by it. -/
class LawfulSlots (σ : Type) {κ β : outParam Type} [Slots σ κ β] : Prop where
  get?_empty (key : κ) : Slots.get? (Slots.empty : σ) key = none
  get?_fresh (slots : σ) (b : β) : Slots.get? slots (Slots.insert slots b).2 = none
  get?_inserted (slots : σ) (b : β) :
    Slots.get? (Slots.insert slots b).1 (Slots.insert slots b).2 = some b
  get?_other (slots : σ) (b : β) {key : κ} (other : key ≠ (Slots.insert slots b).2) :
    Slots.get? (Slots.insert slots b).1 key = Slots.get? slots key
  /-- The size counts the keys in use. -/
  size_eq (slots : σ) (keys : List κ) (distinct : keys.Nodup)
    (used : ∀ key, key ∈ keys ↔ (Slots.get? slots key).isSome) : Slots.size slots = keys.length

/-! ## Catalogs and engines over a store -/

/-- Variables in a store, with the keys in the order they were given out and by name. -/
structure SlotCatalog (σ κ : Type) where
  slots : σ
  order : List κ
  byName : Std.TreeMap String κ

variable {α σ κ : Type} [Slots σ κ (Variable α)]

namespace SlotCatalog

def empty : SlotCatalog σ κ := ⟨Slots.empty, [], ∅⟩

def newKey (c : SlotCatalog σ κ) (v : Variable α) : κ := (Slots.insert c.slots v).2

/-- The catalog with one more variable, in all three of its parts. -/
def extend (c : SlotCatalog σ κ) (v : Variable α) : SlotCatalog σ κ where
  slots := (Slots.insert c.slots v).1
  order := c.order ++ [c.newKey v]
  byName := c.byName.insert v.name (c.newKey v)

/-- Adds a variable, unless its name is taken: what came of it, and the catalog that is left. -/
def add (c : SlotCatalog σ κ) (v : Variable α) : Except DuplicateVariable κ × SlotCatalog σ κ :=
  if v.name ∈ c.byName then (.error ⟨v.name⟩, c) else (.ok (c.newKey v), c.extend v)

def key? (c : SlotCatalog σ κ) (name : String) : Option κ := c.byName[name]?

def entry? (c : SlotCatalog σ κ) (key : κ) : Option (Variable α) := Slots.get? c.slots key

/-- The variable of that name. Without one, the lookup fails. -/
def lookup (c : SlotCatalog σ κ) (name : String) : Except LookupError (Variable α) :=
  match (c.key? name).bind c.entry? with
  | some v => .ok v
  | none => .error (.undefinedVariable name)

def entries (c : SlotCatalog σ κ) : List (Variable α) := c.order.filterMap c.entry?

def size (c : SlotCatalog σ κ) : Nat := Slots.size c.slots

/-- Adds a variable to a catalog of its own that is given up at the first one refused. -/
def add? (c : SlotCatalog σ κ) (v : Variable α) : Except DuplicateVariable (SlotCatalog σ κ) :=
  match c.add v with
  | (.ok _, next) => .ok next
  | (.error e, _) => .error e

def ofList (vs : List (Variable α)) : Except DuplicateVariable (SlotCatalog σ κ) :=
  vs.foldlM add? empty

end SlotCatalog

structure SlotEngine (α σ κ : Type) where
  rules : List Rule
  catalog : SlotCatalog σ κ
  defuzzifier : Defuzzifier α

/-- Puts other variables in place of all there are: what came of it, and the engine that is left. -/
def SlotEngine.replaceVariables (engine : SlotEngine α σ κ) (definitions : List (Variable α)) :
    Except DuplicateVariable Unit × SlotEngine α σ κ :=
  match SlotCatalog.ofList definitions with
  | .ok catalog => (.ok (), { engine with catalog })
  | .error e => (.error e, engine)

/-- A catalog and the variables that it took so far, each with the key that was given for it. -/
structure Additions (α σ κ : Type) where
  accepted : List (Variable α × κ)
  catalog : SlotCatalog σ κ

namespace Additions

/-- One more addition, accepted or refused. -/
def next (a : Additions α σ κ) (v : Variable α) : Additions α σ κ :=
  match a.catalog.add v with
  | (.ok key, catalog) => ⟨a.accepted ++ [(v, key)], catalog⟩
  | (.error _, catalog) => ⟨a.accepted, catalog⟩

/-- Additions to an empty catalog, one after the other. -/
def of (vs : List (Variable α)) : Additions α σ κ := vs.foldl next ⟨[], .empty⟩

end Additions

/-! ## Indices by name -/

section Indices

variable {β κ : Type} {index : Std.TreeMap String κ} {nameOf : β → String} {entries : List (β × κ)}

/-- Under the name of every entry the index has its key, and it has nothing else. -/
def Indexes (index : Std.TreeMap String κ) (nameOf : β → String) (entries : List (β × κ)) : Prop :=
  ∀ name key, index[name]? = some key ↔ ∃ b, (b, key) ∈ entries ∧ nameOf b = name

theorem indexes_empty : Indexes (∅ : Std.TreeMap String κ) nameOf [] := by
  intro name key
  simp

theorem Indexes.mem_iff (h : Indexes index nameOf entries) {name : String} :
    name ∈ index ↔ name ∈ entries.map (nameOf ·.1) := by
  rw [← Std.TreeMap.isSome_getElem?_iff_mem, Option.isSome_iff_exists, List.mem_map]
  constructor
  · rintro ⟨key, found⟩
    obtain ⟨b, member, named⟩ := (h name key).1 found
    exact ⟨(b, key), member, named⟩
  · rintro ⟨⟨b, key⟩, member, named⟩
    exact ⟨key, (h name key).2 ⟨b, member, named⟩⟩

/-- An entry under a new name takes no other entry from the index. -/
theorem Indexes.insert (h : Indexes index nameOf entries) {b : β}
    (free : nameOf b ∉ entries.map (nameOf ·.1)) (new : κ) :
    Indexes (index.insert (nameOf b) new) nameOf (entries ++ [(b, new)]) := by
  intro name key
  simp only [List.mem_append, List.mem_singleton, Prod.mk.injEq]
  rw [Std.TreeMap.getElem?_insert]
  by_cases hn : nameOf b = name
  · subst hn
    have unused (c : β) : ¬ ((c, key) ∈ entries ∧ nameOf c = nameOf b) := by
      rintro ⟨member, named⟩
      exact free (List.mem_map.2 ⟨(c, key), member, named⟩)
    rw [if_pos (by simp), Option.some.injEq]
    constructor
    · rintro rfl
      exact ⟨b, .inr ⟨rfl, rfl⟩, rfl⟩
    · rintro ⟨c, member | ⟨rfl, rfl⟩, named⟩
      · exact absurd ⟨member, named⟩ (unused c)
      · rfl
  · rw [if_neg (by simpa using hn), h]
    constructor
    · rintro ⟨c, member, named⟩
      exact ⟨c, .inl member, named⟩
    · rintro ⟨c, member | ⟨rfl, rfl⟩, named⟩
      · exact ⟨c, member, named⟩
      · exact absurd named hn

end Indices

/-! ## The invariant -/

namespace SlotCatalog

variable {c : SlotCatalog σ κ} {accepted : List (Variable α × κ)} {v : Variable α}

/-- The store, the order and the index hold the variables that were accepted, and nothing else. -/
structure Coherent (c : SlotCatalog σ κ) (accepted : List (Variable α × κ)) : Prop where
  keys : (accepted.map (·.2)).Nodup
  names : (accepted.map (·.1.name)).Nodup
  order : c.order = accepted.map (·.2)
  stored : ∀ v key, Slots.get? c.slots key = some v ↔ (v, key) ∈ accepted
  indexed : ∀ name key, c.byName[name]? = some key ↔ ∃ v, (v, key) ∈ accepted ∧ v.name = name

theorem Coherent.indexes (h : c.Coherent accepted) : Indexes c.byName Variable.name accepted :=
  h.indexed

theorem Coherent.mem_byName_iff (h : c.Coherent accepted) {name : String} :
    name ∈ c.byName ↔ name ∈ accepted.map (·.1.name) := h.indexes.mem_iff

theorem Coherent.add_taken (h : c.Coherent accepted) (taken : v.name ∈ accepted.map (·.1.name)) :
    c.add v = (.error ⟨v.name⟩, c) := if_pos (h.mem_byName_iff.2 taken)

theorem Coherent.add_free (h : c.Coherent accepted) (free : v.name ∉ accepted.map (·.1.name)) :
    c.add v = (.ok (c.newKey v), c.extend v) := by
  apply if_neg
  intro taken
  exact free (h.mem_byName_iff.1 taken)

variable [LawfulSlots σ]

theorem coherent_empty : (empty : SlotCatalog σ κ).Coherent [] where
  keys := List.nodup_nil
  names := List.nodup_nil
  order := rfl
  stored v key := by
    simp [empty, LawfulSlots.get?_empty]
  indexed name key := by
    simp [empty]

theorem Coherent.newKey_fresh (h : c.Coherent accepted) : c.newKey v ∉ accepted.map (·.2) := by
  intro used
  obtain ⟨⟨w, key⟩, member, same⟩ := List.mem_map.1 used
  have there := (h.stored w key).2 member
  have gone : Slots.get? c.slots (c.newKey v) = none := LawfulSlots.get?_fresh c.slots v
  rw [← same, there] at gone
  cases gone

/-- The new key is in use now, and the others stand for what they stood for. -/
theorem Coherent.stored_extend (h : c.Coherent accepted) (w : Variable α) (key : κ) :
    Slots.get? (c.extend v).slots key = some w ↔ (w, key) ∈ accepted ++ [(v, c.newKey v)] := by
  rw [List.mem_append, List.mem_singleton, Prod.mk.injEq]
  by_cases hk : key = c.newKey v
  · subst hk
    have unused : (w, c.newKey v) ∉ accepted := by
      intro member
      exact h.newKey_fresh (List.mem_map_of_mem member)
    have inserted : Slots.get? (c.extend v).slots (c.newKey v) = some v :=
      LawfulSlots.get?_inserted c.slots v
    rw [inserted, Option.some.injEq]
    simp only [unused, false_or, and_true, eq_comm]
  · have same : Slots.get? (c.extend v).slots key = Slots.get? c.slots key :=
      LawfulSlots.get?_other c.slots v hk
    rw [same, h.stored]
    simp only [hk, and_false, or_false]

/-- An addition under a new name keeps the three in agreement. -/
theorem Coherent.extend (h : c.Coherent accepted) (free : v.name ∉ accepted.map (·.1.name)) :
    (c.extend v).Coherent (accepted ++ [(v, c.newKey v)]) where
  keys := by
    rw [List.map_append, List.map_singleton, ← List.concat_eq_append]
    exact h.keys.concat h.newKey_fresh
  names := by
    rw [List.map_append, List.map_singleton, ← List.concat_eq_append]
    exact h.names.concat free
  order := by
    rw [List.map_append, List.map_singleton, SlotCatalog.extend, h.order]
  stored := h.stored_extend
  indexed := h.indexes.insert free (c.newKey v)

/-! ## What the operations say -/

omit [LawfulSlots σ] in
theorem Coherent.entries_eq (h : c.Coherent accepted) : c.entries = accepted.map (·.1) := by
  rw [entries, h.order, List.filterMap_map, ← List.filterMap_eq_map]
  apply List.filterMap_congr
  intro p hp
  exact (h.stored p.1 p.2).2 hp

theorem Coherent.size_eq (h : c.Coherent accepted) : c.size = accepted.length := by
  have used (key : κ) : key ∈ accepted.map (·.2) ↔ (Slots.get? c.slots key).isSome := by
    rw [List.mem_map, Option.isSome_iff_exists]
    constructor
    · rintro ⟨⟨v, key⟩, member, rfl⟩
      exact ⟨v, (h.stored v key).2 member⟩
    · rintro ⟨v, there⟩
      exact ⟨(v, key), (h.stored v key).1 there, rfl⟩
  rw [size, LawfulSlots.size_eq c.slots _ h.keys used, List.length_map]

omit [LawfulSlots σ] in
theorem Coherent.lookup_eq_ok_iff (h : c.Coherent accepted) {name : String} :
    c.lookup name = .ok v ↔ v ∈ accepted.map (·.1) ∧ v.name = name := by
  have found : c.lookup name = .ok v ↔ ∃ key, c.byName[name]? = some key ∧ (v, key) ∈ accepted := by
    simp only [← h.stored, ← Option.bind_eq_some_iff]
    unfold lookup key? entry?
    split <;> simp [*]
  rw [found, List.mem_map]
  constructor
  · rintro ⟨key, hk, member⟩
    obtain ⟨w, member', named⟩ := (h.indexed name key).1 hk
    -- Both stand behind the one key.
    have there := (h.stored v key).2 member
    rw [(h.stored w key).2 member'] at there
    obtain rfl := Option.some.inj there
    exact ⟨⟨(w, key), member, rfl⟩, named⟩
  · rintro ⟨⟨⟨w, key⟩, member, rfl⟩, named⟩
    exact ⟨key, (h.indexed name key).2 ⟨w, member, named⟩, member⟩

omit [LawfulSlots σ] in
theorem lookup_eq_error {name : String} {e : LookupError} (h : c.lookup name = .error e) :
    e = .undefinedVariable name := by
  unfold lookup at h
  split at h
  · cases h
  · cases h
    rfl

/-- What a catalog says that took these variables under these keys. -/
structure Answers (c : SlotCatalog σ κ) (accepted : List (Variable α × κ)) : Prop where
  entries : c.entries = accepted.map (·.1)
  names : (c.entries.map (·.name)).Nodup
  size : c.size = accepted.length
  lookup : ∀ name v, c.lookup name = .ok v ↔ v ∈ c.entries ∧ v.name = name
  key : ∀ name key, c.key? name = some key ↔ ∃ v, (v, key) ∈ accepted ∧ v.name = name
  entry : ∀ v key, c.entry? key = some v ↔ (v, key) ∈ accepted
  taken : ∀ v, v.name ∈ c.entries.map (·.name) → c.add v = (.error ⟨v.name⟩, c)
  free : ∀ v, v.name ∉ c.entries.map (·.name) → ∃ key next, c.add v = (.ok key, next)

theorem Coherent.answers (h : c.Coherent accepted) : c.Answers accepted := by
  have names : c.entries.map (·.name) = accepted.map (·.1.name) := by
    rw [h.entries_eq, List.map_map]
    rfl
  constructor
  case entries => exact h.entries_eq
  case names =>
    rw [names]
    exact h.names
  case size => exact h.size_eq
  case lookup =>
    intro name v
    rw [h.entries_eq]
    exact h.lookup_eq_ok_iff
  case key => exact h.indexed
  case entry => exact h.stored
  case taken =>
    intro v taken
    rw [names] at taken
    exact h.add_taken taken
  case free =>
    intro v free
    rw [names] at free
    exact ⟨_, _, h.add_free free⟩

end SlotCatalog

/-! ## Runs -/

namespace Additions

variable {a : Additions α σ κ} {v : Variable α}

theorem next_taken (h : a.catalog.Coherent a.accepted)
    (taken : v.name ∈ a.accepted.map (·.1.name)) : a.next v = a := by
  rw [next, h.add_taken taken]

theorem next_free (h : a.catalog.Coherent a.accepted)
    (free : v.name ∉ a.accepted.map (·.1.name)) :
    a.next v = ⟨a.accepted ++ [(v, a.catalog.newKey v)], a.catalog.extend v⟩ := by
  rw [next, h.add_free free]

variable [LawfulSlots σ]

theorem coherent_next (h : a.catalog.Coherent a.accepted) (v : Variable α) :
    (a.next v).catalog.Coherent (a.next v).accepted := by
  by_cases taken : v.name ∈ a.accepted.map (·.1.name)
  · rw [next_taken h taken]
    exact h
  · rw [next_free h taken]
    exact h.extend taken

omit [LawfulSlots σ] in
theorem of_concat (vs : List (Variable α)) (v : Variable α) :
    (of (vs ++ [v]) : Additions α σ κ) = (of vs).next v := by
  rw [of, List.foldl_append]
  rfl

theorem coherent_of (vs : List (Variable α)) :
    (of vs : Additions α σ κ).catalog.Coherent (of vs : Additions α σ κ).accepted := by
  induction vs using List.reverseRecOn with
  | nil => exact SlotCatalog.coherent_empty
  | append_singleton vs v ih =>
    rw [of_concat]
    exact coherent_next ih v

omit [LawfulSlots σ] in
theorem accepted_prefix_next (a : Additions α σ κ) (v : Variable α) :
    a.accepted <+: (a.next v).accepted := by
  unfold next
  split
  · exact List.prefix_append _ _
  · exact List.prefix_rfl

omit [LawfulSlots σ] in
/-- What was accepted stays so, under the same key. -/
theorem accepted_prefix_append (vs later : List (Variable α)) :
    (of vs : Additions α σ κ).accepted <+: (of (vs ++ later) : Additions α σ κ).accepted := by
  induction later using List.reverseRecOn with
  | nil => simp only [List.append_nil, List.prefix_rfl]
  | append_singleton later v ih =>
    rw [← List.append_assoc, of_concat]
    exact ih.trans (accepted_prefix_next _ v)

end Additions

/-! ## Slots and lists -/

section Agreement

variable {a : Additions α σ κ} {c : SlotCatalog σ κ} {accepted : List (Variable α × κ)}
  {d : Catalog α}

omit [Slots σ κ (Variable α)] in
theorem Catalog.names_eq (same : d.entries = accepted.map (·.1)) :
    d.names = accepted.map (·.1.name) := by
  rw [Catalog.names, same, List.map_map]
  rfl

theorem Additions.entries_next (h : a.catalog.Coherent a.accepted)
    (same : d.entries = a.accepted.map (·.1)) (v : Variable α) :
    (d.next v).entries = (a.next v).accepted.map (·.1) := by
  by_cases taken : v.name ∈ a.accepted.map (·.1.name)
  · rw [next_taken h taken, Catalog.next, Catalog.add_taken (Catalog.names_eq same ▸ taken), same]
  · rw [next_free h taken, Catalog.next, Catalog.add_free (Catalog.names_eq same ▸ taken)]
    simp only [same, List.map_append, List.map_singleton]

variable [LawfulSlots σ]

theorem Additions.entries_of (vs : List (Variable α)) :
    (Catalog.of vs).entries = (of vs : Additions α σ κ).accepted.map (·.1) := by
  induction vs using List.reverseRecOn with
  | nil => rfl
  | append_singleton vs v ih =>
    rw [of_concat, Catalog.of, List.foldl_append]
    exact entries_next (coherent_of vs) ih v

omit [LawfulSlots σ] in
theorem SlotCatalog.Answers.lookup_eq (h : c.Answers accepted) (same : d.entries = c.entries)
    (name : String) : d.lookup name = c.lookup name := by
  have found (v : Variable α) : d.lookup name = .ok v ↔ c.lookup name = .ok v := by
    rw [Catalog.lookup_eq_ok_iff, same, h.lookup]
  cases hd : d.lookup name with
  | ok v => exact ((found v).1 hd).symm
  | error e =>
    cases hc : c.lookup name with
    | ok v =>
      rw [(found v).2 hc] at hd
      cases hd
    | error e' => rw [Catalog.lookup_eq_error hd, SlotCatalog.lookup_eq_error hc]

/-- Additions to a catalog in slots are given up where those to a plain catalog are. -/
theorem SlotCatalog.Coherent.foldlM_add? (h : c.Coherent accepted)
    (same : d.entries = accepted.map (·.1)) (vs : List (Variable α)) :
    (vs.foldlM SlotCatalog.add? c).map (·.entries) =
      (vs.foldlM (fun (d : Catalog α) v => (d.add v).map (·.1)) d).map (·.entries) := by
  induction vs generalizing c d accepted with
  | nil => exact congrArg Except.ok (h.entries_eq.trans same.symm)
  | cons v vs ih =>
    rw [List.foldlM_cons, List.foldlM_cons, SlotCatalog.add?]
    by_cases taken : v.name ∈ accepted.map (·.1.name)
    · rw [h.add_taken taken, Catalog.add_taken (Catalog.names_eq same ▸ taken)]
      rfl
    · rw [h.add_free taken, Catalog.add_free (Catalog.names_eq same ▸ taken)]
      apply ih (h.extend taken)
      simp only [same, List.map_append, List.map_singleton]

theorem SlotCatalog.map_entries_ofList (vs : List (Variable α)) :
    (SlotCatalog.ofList vs : Except _ (SlotCatalog σ κ)).map (·.entries) =
      (Catalog.ofList vs).map (·.entries) :=
  SlotCatalog.coherent_empty.foldlM_add? rfl vs

end Agreement

/-! ## What additions make of a catalog and of an engine -/

namespace SlotCatalog

variable [LawfulSlots σ] {vs : List (Variable α)}

theorem failure?_ofList (vs : List (Variable α)) :
    failure? (ofList vs : Except _ (SlotCatalog σ κ)) = failure? (Catalog.ofList vs) := by
  have slots := failure?_map (ofList vs : Except _ (SlotCatalog σ κ)) (·.entries)
  have list := failure?_map (Catalog.ofList vs) (·.entries)
  have same := congrArg failure? (map_entries_ofList (σ := σ) vs)
  exact slots.symm.trans (same.trans list)

theorem ofList_succeeds_iff :
    (∃ c : SlotCatalog σ κ, ofList vs = .ok c) ↔ (vs.map (·.name)).Nodup := by
  rw [← failure?_eq_none_iff, failure?_ofList, failure?_eq_none_iff]
  exact Catalog.foldlM_add_succeeds_iff

theorem ofList_eq_error_iff {e : DuplicateVariable} :
    (ofList vs : Except _ (SlotCatalog σ κ)) = .error e ↔
      ∃ before v behind, vs = before ++ v :: behind ∧ (before.map (·.name)).Nodup ∧
        v.name ∈ before.map (·.name) ∧ e = ⟨v.name⟩ := by
  rw [← failure?_eq_some_iff, failure?_ofList, failure?_eq_some_iff]
  exact Catalog.foldlM_add_eq_error_iff

theorem entries_of_ofList {c : SlotCatalog σ κ} (h : ofList vs = .ok c) : c.entries = vs := by
  have same := map_entries_ofList (σ := σ) vs
  rw [h] at same
  obtain ⟨d, made, entries⟩ := map_eq_ok_iff.1 same.symm
  exact entries.symm.trans (Catalog.entries_foldlM_add made)

end SlotCatalog

/-- The variables are those of the list and the rules are left alone, or nothing is changed. -/
theorem SlotEngine.replaceVariables_cases [LawfulSlots σ] (engine : SlotEngine α σ κ)
    (vs : List (Variable α)) :
    ((vs.map (·.name)).Nodup ∧ ∃ catalog, catalog.entries = vs ∧
        engine.replaceVariables vs = (.ok (), { engine with catalog })) ∨
      (¬ (vs.map (·.name)).Nodup ∧ ∃ e, engine.replaceVariables vs = (.error e, engine)) := by
  unfold replaceVariables
  have succeeds : (∃ c : SlotCatalog σ κ, SlotCatalog.ofList vs = .ok c) ↔
      (vs.map (·.name)).Nodup := SlotCatalog.ofList_succeeds_iff
  cases made : (SlotCatalog.ofList vs : Except _ (SlotCatalog σ κ)) with
  | ok catalog =>
    left
    exact ⟨succeeds.1 ⟨catalog, made⟩, catalog, SlotCatalog.entries_of_ofList made, rfl⟩
  | error e =>
    right
    refine ⟨?_, e, rfl⟩
    intro distinct
    obtain ⟨c, hc⟩ := succeeds.2 distinct
    rw [made] at hc
    cases hc

/-- What the operations of a catalog say after any additions, accepted and refused: the variables
that were accepted stand in it in order and under names of their own, are found under these, and
stay behind their keys, whatever is added later. A name that is taken is refused, and the catalog is
left as it was. A `Catalog` holds the same variables and finds the same ones.

So a whole list makes a catalog if its names are distinct, or else the first variable whose name
stood there before is what it fails with, in slots as in lists. An engine has the variables of the
list and the rules that it had, or is left as it was. -/
theorem catalog_of_additions [LawfulSlots σ] (vs : List (Variable α)) :
    (Additions.of vs : Additions α σ κ).catalog.Answers
        (Additions.of vs : Additions α σ κ).accepted ∧
      (∀ later v key, (v, key) ∈ (Additions.of vs : Additions α σ κ).accepted →
        (Additions.of (vs ++ later) : Additions α σ κ).catalog.entry? key = some v) ∧
      (Catalog.of vs).entries = (Additions.of vs : Additions α σ κ).catalog.entries ∧
      (∀ name, (Catalog.of vs).lookup name =
        (Additions.of vs : Additions α σ κ).catalog.lookup name) ∧
      ((∃ c : SlotCatalog σ κ, SlotCatalog.ofList vs = .ok c) ↔ (vs.map (·.name)).Nodup) ∧
      (∀ e, (SlotCatalog.ofList vs : Except _ (SlotCatalog σ κ)) = .error e ↔
        ∃ before v behind, vs = before ++ v :: behind ∧ (before.map (·.name)).Nodup ∧
          v.name ∈ before.map (·.name) ∧ e = ⟨v.name⟩) ∧
      (SlotCatalog.ofList vs : Except _ (SlotCatalog σ κ)).map (·.entries) =
        (Catalog.ofList vs).map (·.entries) ∧
      ∀ engine : SlotEngine α σ κ,
        ((vs.map (·.name)).Nodup ∧ ∃ catalog, catalog.entries = vs ∧
            engine.replaceVariables vs = (.ok (), { engine with catalog })) ∨
          (¬ (vs.map (·.name)).Nodup ∧
            ∃ e, engine.replaceVariables vs = (.error e, engine)) := by
  have coherent := Additions.coherent_of (σ := σ) vs
  have entries : (Catalog.of vs).entries = (Additions.of vs : Additions α σ κ).catalog.entries :=
    (Additions.entries_of vs).trans coherent.entries_eq.symm
  refine ⟨coherent.answers, ?_, entries, coherent.answers.lookup_eq entries,
    SlotCatalog.ofList_succeeds_iff, ?_, SlotCatalog.map_entries_ofList vs, ?_⟩
  · intro later v key member
    have kept := (Additions.accepted_prefix_append vs later).subset member
    exact ((Additions.coherent_of (vs ++ later)).stored v key).2 kept
  · intro e
    exact SlotCatalog.ofList_eq_error_iff
  · intro engine
    exact engine.replaceVariables_cases vs

/-! ## Slots in a row -/

/-- Slots in a row, numbered from one. None is ever given up, so each is in its first version. -/
structure SlotRow (β : Type) where
  values : List β

structure SlotKey where
  index : Nat
  version : Nat
  deriving DecidableEq, Repr

instance {β : Type} : Slots (SlotRow β) SlotKey β where
  empty := ⟨[]⟩
  insert slots b := (⟨slots.values ++ [b]⟩, ⟨slots.values.length + 1, 1⟩)
  get? slots key :=
    if key.version = 1 ∧ key.index ≠ 0 then slots.values[key.index - 1]? else none
  size slots := slots.values.length

namespace SlotRow

variable {β : Type}

theorem get?_eq_some_iff {slots : SlotRow β} {key : SlotKey} {b : β} :
    Slots.get? slots key = some b ↔ ∃ i, key = ⟨i + 1, 1⟩ ∧ slots.values[i]? = some b := by
  obtain ⟨index, version⟩ := key
  simp only [Slots.get?]
  cases index with
  | zero => simp
  | succ i =>
    by_cases hv : version = 1
    · simp [hv]
    · simp [hv]

theorem get?_insert (slots : SlotRow β) (b : β) (key : SlotKey) :
    Slots.get? (Slots.insert slots b).1 key =
      if key = (Slots.insert slots b).2 then some b else Slots.get? slots key := by
  obtain ⟨index, version⟩ := key
  simp only [Slots.get?, Slots.insert, SlotKey.mk.injEq]
  by_cases hv : version = 1
  · cases index with
    | zero => simp
    | succ i =>
      simp only [hv, Nat.add_sub_cancel, Nat.add_right_cancel_iff]
      grind
  · simp [hv]

instance : LawfulSlots (SlotRow β) where
  get?_empty key := by
    simp [Slots.get?, Slots.empty]
  get?_fresh slots b := by
    simp [Slots.get?, Slots.insert]
  get?_inserted slots b := by
    rw [get?_insert, if_pos rfl]
  get?_other slots b key other := by
    rw [get?_insert, if_neg other]
  size_eq slots keys distinct used := by
    have numbers : keys.Perm ((List.range slots.values.length).map fun i => ⟨i + 1, 1⟩) := by
      apply (List.perm_ext_iff_of_nodup distinct _).2
      · intro key
        rw [used, Option.isSome_iff_exists]
        simp only [get?_eq_some_iff, List.mem_map, List.mem_range]
        constructor
        · rintro ⟨b, i, rfl, found⟩
          exact ⟨i, (List.getElem?_eq_some_iff.1 found).1, rfl⟩
        · rintro ⟨i, bound, rfl⟩
          exact ⟨slots.values[i], i, rfl, List.getElem?_eq_getElem bound⟩
      · apply List.Nodup.map _ List.nodup_range
        intro i j same
        simpa using same
    rw [numbers.length_eq, List.length_map, List.length_range]
    rfl

end SlotRow

def slowFan : Variable Nat := ⟨"fan", [⟨"slow", .linear 0 1⟩], by decide⟩

def vent : Variable Nat := ⟨"vent", [⟨"open", .linear 0 1⟩], by decide⟩

def fastFan : Variable Nat := ⟨"fan", [⟨"fast", .linear 0 1⟩], by decide⟩

/-- The second fan is refused. -/
theorem catalog_of_additions_repeated_name :
    let a : Additions Nat (SlotRow (Variable Nat)) SlotKey := .of [slowFan, vent, fastFan]
    a.catalog.Answers a.accepted ∧ a.accepted = [(slowFan, ⟨1, 1⟩), (vent, ⟨2, 1⟩)] ∧
      SlotCatalog.ofList [slowFan, vent, fastFan] =
        (.error ⟨"fan"⟩ : Except _ (SlotCatalog (SlotRow (Variable Nat)) SlotKey)) := by
  obtain ⟨answers, -, -, -, -, refused, -⟩ :=
    catalog_of_additions (σ := SlotRow (Variable Nat)) [slowFan, vent, fastFan]
  refine ⟨answers, rfl, (refused ⟨"fan"⟩).2 ?_⟩
  exact ⟨[slowFan, vent], fastFan, [], rfl, by decide, by decide, rfl⟩

end FuzzyInference
