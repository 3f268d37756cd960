/-!
# Tables

A `Table` gives values to names. Each name has one entry, and the entries stay in the order in which
their names were first given a value.
-/

namespace ThreeAddress

structure Table (α : Type) where
  entries : List (String × α)
  nodup : (entries.map Prod.fst).Nodup

namespace Table

variable {α : Type}

instance [DecidableEq α] : DecidableEq (Table α) := fun left right =>
  if h : left.entries = right.entries then
    isTrue (by cases left; cases right; cases h; rfl)
  else
    isFalse fun eq => h (congrArg entries eq)

instance [Repr α] : Repr (Table α) := ⟨fun table _ => repr table.entries⟩

def empty : Table α := ⟨[], .nil⟩

instance : EmptyCollection (Table α) := ⟨empty⟩

instance : Inhabited (Table α) := ⟨∅⟩

def keys (table : Table α) : List String := table.entries.map Prod.fst

def values (table : Table α) : List α := table.entries.map Prod.snd

def size (table : Table α) : Nat := table.entries.length

def lookup (name : String) : List (String × α) → Option α
  | [] => none
  | (key, value) :: rest => if key = name then some value else lookup name rest

def get? (table : Table α) (name : String) : Option α := lookup name table.entries

def contains (table : Table α) (name : String) : Bool := (table.get? name).isSome

/-- The entries with the value of `name` replaced, or with a new entry at the end. -/
def put (name : String) (value : α) : List (String × α) → List (String × α)
  | [] => [(name, value)]
  | (key, old) :: rest =>
    if key = name then (key, value) :: rest else (key, old) :: put name value rest

theorem mem_keys_put {name key : String} {value : α} {entries : List (String × α)} :
    key ∈ (put name value entries).map Prod.fst ↔ key = name ∨ key ∈ entries.map Prod.fst := by
  induction entries with
  | nil => simp [put]
  | cons entry rest ih =>
    obtain ⟨first, old⟩ := entry
    simp only [put]
    split
    · next h => subst h; simp
    · simp only [List.map_cons, List.mem_cons, ih]
      constructor
      · rintro (h | h | h) <;> simp [h]
      · rintro (h | h | h) <;> simp [h]

theorem nodup_put {name : String} {value : α} {entries : List (String × α)}
    (h : (entries.map Prod.fst).Nodup) : ((put name value entries).map Prod.fst).Nodup := by
  induction entries with
  | nil => simp [put]
  | cons entry rest ih =>
    obtain ⟨first, old⟩ := entry
    obtain ⟨fresh, tail⟩ := List.nodup_cons.mp h
    simp only [put]
    split
    · exact h
    · next ne =>
      refine List.nodup_cons.mpr ⟨?_, ih tail⟩
      intro hin
      rcases mem_keys_put.mp hin with eq | hin
      · exact ne eq
      · exact fresh hin

def set (table : Table α) (name : String) (value : α) : Table α :=
  ⟨put name value table.entries, nodup_put table.nodup⟩

/-- Gives `name` a value unless it has one. -/
def setNew (table : Table α) (name : String) (value : α) : Table α :=
  if table.contains name then table else table.set name value

def erase (table : Table α) (name : String) : Table α :=
  ⟨table.entries.filter fun entry => entry.1 != name,
    (List.filter_sublist.map Prod.fst).nodup table.nodup⟩

def mapValues {β : Type} (f : String → α → β) (table : Table α) : Table β :=
  ⟨table.entries.map fun entry => (entry.1, f entry.1 entry.2), by
    have : (table.entries.map fun entry => (entry.1, f entry.1 entry.2)).map Prod.fst
        = table.entries.map Prod.fst := by simp
    rw [this]
    exact table.nodup⟩

def filter (keep : α → Bool) (table : Table α) : Table α :=
  ⟨table.entries.filter fun entry => keep entry.2,
    (List.filter_sublist.map Prod.fst).nodup table.nodup⟩

/-- The entries in increasing order of their names. -/
def sorted (table : Table α) : List (String × α) :=
  table.entries.mergeSort fun left right => decide (left.1 ≤ right.1)

theorem lookup_put {name key : String} {value : α} {entries : List (String × α)} :
    lookup key (put name value entries) = if name = key then some value else lookup key entries := by
  induction entries with
  | nil => simp [put, lookup]
  | cons entry rest ih =>
    obtain ⟨first, old⟩ := entry
    simp only [put]
    split
    · next h => subst h; simp only [lookup]; split <;> rfl
    · next h =>
      simp only [lookup, ih]
      split
      · next h' => subst h'; simp [Ne.symm h]
      · rfl

@[simp] theorem get?_empty (name : String) : (∅ : Table α).get? name = none := rfl

@[simp] theorem get?_set {table : Table α} {name key : String} {value : α} :
    (table.set name value).get? key = if name = key then some value else table.get? key :=
  lookup_put

@[simp] theorem mem_keys_set {table : Table α} {name key : String} {value : α} :
    key ∈ (table.set name value).keys ↔ key = name ∨ key ∈ table.keys :=
  mem_keys_put

theorem lookup_isSome {name : String} {entries : List (String × α)} :
    (lookup name entries).isSome = true ↔ name ∈ entries.map Prod.fst := by
  induction entries with
  | nil => simp [lookup]
  | cons entry rest ih =>
    obtain ⟨first, old⟩ := entry
    simp only [lookup]
    split
    · next h => subst h; simp
    · next h => simp [ih, Ne.symm h]

theorem contains_iff {table : Table α} {name : String} :
    table.contains name = true ↔ name ∈ table.keys :=
  lookup_isSome

theorem keys_nodup (table : Table α) : table.keys.Nodup := table.nodup

@[simp] theorem get?_setNew {table : Table α} {name key : String} {value : α} :
    (table.setNew name value).get? key
      = if name = key then some ((table.get? key).getD value) else table.get? key := by
  unfold setNew
  split
  · next known =>
    by_cases h : name = key
    · subst h
      obtain ⟨old, hold⟩ := Option.isSome_iff_exists.mp known
      simp [hold]
    · simp [h]
  · next unknown =>
    rw [get?_set]
    by_cases h : name = key
    · subst h
      have : table.get? name = none := by simpa [contains] using unknown
      simp [this]
    · simp [h]

@[simp] theorem mem_keys_setNew {table : Table α} {name key : String} {value : α} :
    key ∈ (table.setNew name value).keys ↔ key = name ∨ key ∈ table.keys := by
  unfold setNew
  split
  · next known =>
    constructor
    · exact Or.inr
    · rintro (rfl | h)
      · exact contains_iff.mp known
      · exact h
  · exact mem_keys_set

theorem lookup_mapValues {β : Type} {f : String → α → β} {name : String}
    {entries : List (String × α)} :
    lookup name (entries.map fun entry => (entry.1, f entry.1 entry.2))
      = (lookup name entries).map (f name) := by
  induction entries with
  | nil => rfl
  | cons entry rest ih =>
    obtain ⟨key, value⟩ := entry
    simp only [List.map_cons, lookup, ih]
    split
    · next h => subst h; rfl
    · rfl

@[simp] theorem get?_mapValues {β : Type} {f : String → α → β} {table : Table α} {name : String} :
    (table.mapValues f).get? name = (table.get? name).map (f name) :=
  lookup_mapValues

@[simp] theorem keys_mapValues {β : Type} {f : String → α → β} {table : Table α} :
    (table.mapValues f).keys = table.keys := by
  simp [keys, mapValues]

theorem lookup_eq_some_iff {name : String} {value : α} {entries : List (String × α)}
    (h : (entries.map Prod.fst).Nodup) :
    lookup name entries = some value ↔ (name, value) ∈ entries := by
  induction entries with
  | nil => simp [lookup]
  | cons entry rest ih =>
    obtain ⟨key, old⟩ := entry
    obtain ⟨fresh, tail⟩ := List.nodup_cons.mp h
    simp only [lookup, List.mem_cons, Prod.mk.injEq]
    split
    · next eq =>
      subst eq
      constructor
      · intro hv; exact .inl ⟨rfl, (Option.some.inj hv).symm⟩
      · rintro (⟨-, rfl⟩ | hin)
        · rfl
        · exact absurd (List.mem_map_of_mem hin) fresh
    · next ne =>
      rw [ih tail]
      constructor
      · exact Or.inr
      · rintro (⟨rfl, -⟩ | hin)
        · exact absurd rfl ne
        · exact hin

theorem get?_eq_some_iff {table : Table α} {name : String} {value : α} :
    table.get? name = some value ↔ (name, value) ∈ table.entries :=
  lookup_eq_some_iff table.nodup

theorem get?_filter_eq_some_iff {table : Table α} {keep : α → Bool} {name : String} {value : α} :
    (table.filter keep).get? name = some value ↔ table.get? name = some value ∧ keep value = true := by
  simp [get?_eq_some_iff, filter]

theorem mapValues_mapValues {β γ : Type} {f : String → α → β} {g : String → β → γ} {table : Table α} :
    (table.mapValues f).mapValues g = table.mapValues fun name value => g name (f name value) := by
  simp [mapValues]

theorem mapValues_congr {β : Type} {f g : String → α → β} {table : Table α}
    (h : ∀ name value, table.get? name = some value → f name value = g name value) :
    table.mapValues f = table.mapValues g := by
  simp only [mapValues, mk.injEq, List.map_inj_left, Prod.mk.injEq, true_and]
  exact fun entry hentry => h _ _ (get?_eq_some_iff.mpr hentry)

theorem filter_mapValues {β : Type} {f : String → α → β} {keep : β → Bool} {kept : α → Bool}
    {table : Table α} (h : ∀ name value, keep (f name value) = kept value) :
    (table.mapValues f).filter keep = (table.filter kept).mapValues f := by
  simp only [mapValues, filter, mk.injEq, List.filter_map]
  congr 1
  exact List.filter_congr fun entry _ => h entry.1 entry.2

theorem mem_values_iff {table : Table α} {value : α} :
    value ∈ table.values ↔ ∃ name, table.get? name = some value := by
  simp [values, get?_eq_some_iff]

theorem mem_keys_iff {table : Table α} {name : String} :
    name ∈ table.keys ↔ ∃ value, table.get? name = some value := by
  rw [← contains_iff, contains, Option.isSome_iff_exists]

theorem put_of_not_mem {name : String} {value : α} {entries : List (String × α)}
    (h : name ∉ entries.map Prod.fst) : put name value entries = entries ++ [(name, value)] := by
  induction entries with
  | nil => rfl
  | cons entry rest ih =>
    obtain ⟨key, old⟩ := entry
    obtain ⟨ne, hrest⟩ := not_or.mp (mt List.mem_cons.mpr h)
    simp [put, Ne.symm ne, ih hrest]

theorem entries_set_of_not_mem {table : Table α} {name : String} {value : α}
    (h : name ∉ table.keys) : (table.set name value).entries = table.entries ++ [(name, value)] :=
  put_of_not_mem h

theorem keys_set_of_not_mem {table : Table α} {name : String} {value : α} (h : name ∉ table.keys) :
    (table.set name value).keys = table.keys ++ [name] := by
  rw [keys, entries_set_of_not_mem h, List.map_append]
  rfl

end Table

end ThreeAddress
