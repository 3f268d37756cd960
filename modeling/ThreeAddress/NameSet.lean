/-!
# Sets of names

A `NameSet` lists its names in increasing order and each once, so two sets with the same members are
equal and have the same size. Names are compared character by character, by code point.
-/

namespace ThreeAddress

structure NameSet where
  names : List String
  ordered : names.Pairwise (· < ·)
  deriving DecidableEq

namespace NameSet

instance : Repr NameSet := ⟨fun set _ => repr set.names⟩

instance : Membership String NameSet := ⟨fun set name => name ∈ set.names⟩

theorem mem_def {set : NameSet} {name : String} : name ∈ set ↔ name ∈ set.names := Iff.rfl

instance (name : String) (set : NameSet) : Decidable (name ∈ set) :=
  inferInstanceAs (Decidable (name ∈ set.names))

def empty : NameSet := ⟨[], .nil⟩

instance : EmptyCollection NameSet := ⟨empty⟩

instance : Inhabited NameSet := ⟨∅⟩

@[simp] theorem not_mem_empty (name : String) : name ∉ (∅ : NameSet) :=
  List.not_mem_nil

def size (set : NameSet) : Nat := set.names.length

def contains (set : NameSet) (name : String) : Bool := decide (name ∈ set)

@[simp] theorem contains_iff {set : NameSet} {name : String} :
    set.contains name = true ↔ name ∈ set := by
  simp [contains]

/-- The place of a name in an increasing list, where it is put unless it stands there already. -/
def place (name : String) : List String → List String
  | [] => [name]
  | other :: rest =>
    if name < other then name :: other :: rest
    else if name = other then other :: rest
    else other :: place name rest

theorem mem_place {name other : String} {names : List String} :
    other ∈ place name names ↔ other = name ∨ other ∈ names := by
  induction names with
  | nil => simp [place]
  | cons first rest ih =>
    simp only [place]
    split
    · simp
    · split
      · next h => subst h; simp
      · simp only [List.mem_cons, ih]
        constructor
        · rintro (h | h | h) <;> simp [h]
        · rintro (h | h | h) <;> simp [h]

theorem pairwise_place {name : String} {names : List String}
    (h : names.Pairwise (· < ·)) : (place name names).Pairwise (· < ·) := by
  induction names with
  | nil => simp [place]
  | cons first rest ih =>
    obtain ⟨below, tail⟩ := List.pairwise_cons.mp h
    simp only [place]
    split
    · next lt =>
      refine List.pairwise_cons.mpr ⟨?_, h⟩
      intro other hother
      rcases List.mem_cons.mp hother with rfl | hrest
      · exact lt
      · exact String.lt_trans lt (below other hrest)
    · split
      · exact h
      · next nlt ne =>
        refine List.pairwise_cons.mpr ⟨?_, ih tail⟩
        intro other hother
        rcases mem_place.mp hother with rfl | hrest
        · exact Std.lt_of_le_of_ne (String.not_lt.mp nlt) (Ne.symm ne)
        · exact below other hrest

def insert (set : NameSet) (name : String) : NameSet :=
  ⟨place name set.names, pairwise_place set.ordered⟩

@[simp] theorem mem_insert {set : NameSet} {name other : String} :
    other ∈ set.insert name ↔ other = name ∨ other ∈ set :=
  mem_place

def insertAll (set : NameSet) (names : List String) : NameSet :=
  names.foldl insert set

@[simp] theorem mem_insertAll {set : NameSet} {names : List String} {name : String} :
    name ∈ set.insertAll names ↔ name ∈ set ∨ name ∈ names := by
  induction names generalizing set with
  | nil => simp [insertAll]
  | cons first rest ih =>
    have step : set.insertAll (first :: rest) = (set.insert first).insertAll rest := rfl
    rw [step, ih, mem_insert, List.mem_cons]
    constructor
    · rintro ((h | h) | h) <;> simp [h]
    · rintro (h | h | h) <;> simp [h]

def ofList (names : List String) : NameSet := insertAll ∅ names

@[simp] theorem mem_ofList {names : List String} {name : String} :
    name ∈ ofList names ↔ name ∈ names := by
  simp [ofList]

def union (set other : NameSet) : NameSet := set.insertAll other.names

instance : Union NameSet := ⟨union⟩

@[simp] theorem mem_union {set other : NameSet} {name : String} :
    name ∈ set ∪ other ↔ name ∈ set ∨ name ∈ other :=
  mem_insertAll

def diff (set other : NameSet) : NameSet :=
  ⟨set.names.filter fun name => !other.contains name, set.ordered.filter _⟩

instance : SDiff NameSet := ⟨diff⟩

@[simp] theorem mem_sdiff {set other : NameSet} {name : String} :
    name ∈ set \ other ↔ name ∈ set ∧ name ∉ other := by
  show name ∈ List.filter _ _ ↔ _
  simp [mem_def, contains]

instance : HasSubset NameSet := ⟨fun set other => ∀ name ∈ set, name ∈ other⟩

/-- An increasing list is determined by its members. -/
theorem eq_of_mem_iff {left right : List String} (hl : left.Pairwise (· < ·))
    (hr : right.Pairwise (· < ·)) (h : ∀ name, name ∈ left ↔ name ∈ right) : left = right := by
  induction left generalizing right with
  | nil =>
    cases right with
    | nil => rfl
    | cons b bs => exact absurd ((h b).mpr List.mem_cons_self) List.not_mem_nil
  | cons a as ih =>
    cases right with
    | nil => exact absurd ((h a).mp List.mem_cons_self) List.not_mem_nil
    | cons b bs =>
      obtain ⟨ha, has⟩ := List.pairwise_cons.mp hl
      obtain ⟨hb, hbs⟩ := List.pairwise_cons.mp hr
      have hab : a = b := by
        rcases List.mem_cons.mp ((h a).mp List.mem_cons_self) with rfl | hin
        · rfl
        · rcases List.mem_cons.mp ((h b).mpr List.mem_cons_self) with rfl | hin'
          · rfl
          · exact absurd (hb a hin) (String.lt_asymm (ha b hin'))
      subst hab
      congr 1
      refine ih has hbs fun name => ?_
      constructor
      · intro hin
        rcases List.mem_cons.mp ((h name).mp (List.mem_cons_of_mem _ hin)) with rfl | hin'
        · exact absurd (ha name hin) (String.lt_irrefl name)
        · exact hin'
      · intro hin
        rcases List.mem_cons.mp ((h name).mpr (List.mem_cons_of_mem _ hin)) with rfl | hin'
        · exact absurd (hb name hin) (String.lt_irrefl name)
        · exact hin'

theorem ext {set other : NameSet} (h : ∀ name, name ∈ set ↔ name ∈ other) : set = other := by
  cases set with
  | mk left hl =>
    cases other with
    | mk right hr =>
      have := eq_of_mem_iff hl hr h
      subst this
      rfl

end NameSet

end ThreeAddress
