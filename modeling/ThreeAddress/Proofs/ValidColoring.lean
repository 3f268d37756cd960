import Mathlib.Data.List.Nodup
import Mathlib.Data.List.Perm.Subperm
import ThreeAddress.Coloring
import ThreeAddress.Proofs.Conflict
import ThreeAddress.Proofs.Success

/-!
# Colorings are valid

`InterferenceGraph.valid_of_color`: a coloring that is returned colors the vertices and nothing else,
neighbours differ, and what is pinned stays where it was pinned. The pinned vertices are colored first.
After that the invariant is that the vertices colored so far are apart from their neighbours; each
further vertex avoids the neighbours that have a register already, and the others will avoid it.

The registers are below `InterferenceGraph.palette`, since both kinds of vertices are held to it
(`usesBelow_of_color`).
-/

namespace ThreeAddress

-- If the search comes back with a taken number, it has seen `fuel + 1` taken ones in a row.
theorem taken_of_lowestFreeFrom {taken : List Nat} {fuel low : Nat}
    (h : lowestFreeFrom taken fuel low ∈ taken) : ∀ k ≤ fuel, low + k ∈ taken := by
  induction fuel generalizing low with
  | zero =>
    intro k hk
    obtain rfl : k = 0 := by omega
    exact h
  | succ fuel ih =>
    simp only [lowestFreeFrom] at h
    split at h
    · next hlow =>
      intro k hk
      cases k with
      | zero => exact hlow
      | succ k =>
        have := ih h k (by omega)
        rwa [show low + (k + 1) = low + 1 + k by omega]
    · next hlow => exact absurd h hlow

theorem lowestFree_not_mem (taken : List Nat) : lowestFree taken ∉ taken := by
  intro h
  have hall := taken_of_lowestFreeFrom h
  have hsubset : List.range (taken.length + 1) ⊆ taken := by
    intro k hk
    simpa using hall k (by simpa [Nat.lt_succ_iff] using hk)
  have hlength := (List.subperm_of_subset List.nodup_range hsubset).length_le
  rw [List.length_range] at hlength
  omega

namespace InterferenceGraph

/-- No two neighbours that are colored have the same register. -/
def Apart (graph : InterferenceGraph) (coloring : Coloring) : Prop :=
  ∀ {a b : String} {ra rb : Nat}, b ∈ graph.neighbours a → coloring.get? a = some ra →
    coloring.get? b = some rb → ra ≠ rb

theorem colorPinned_ok {graph : InterferenceGraph} {count : Nat} {pins : List (String × Nat)}
    {coloring coloring' : Coloring} (nodup : (pins.map Prod.fst).Nodup)
    (h : graph.colorPinned count pins coloring = .ok coloring') (name : String) :
    coloring'.get? name = if name ∈ graph.vertices then (Table.lookup name pins).or (coloring.get? name)
      else coloring.get? name := by
  induction pins generalizing coloring with
  | nil =>
    cases h
    simp [Table.lookup]
  | cons pin rest ih =>
    obtain ⟨key, register⟩ := pin
    obtain ⟨fresh, tail⟩ := List.nodup_cons.mp nodup
    simp only [colorPinned] at h
    simp only [Table.lookup]
    split at h
    · next outside =>
      have hkey : key ∉ graph.vertices := by
        intro hin
        rw [contains_iff.mpr hin] at outside
        cases outside
      rw [ih tail h]
      by_cases hname : key = name
      · subst hname
        rw [if_neg hkey, if_neg hkey]
      · rw [if_neg hname]
    · split at h
      · cases h
      · next inside _ =>
        have hkey : key ∈ graph.vertices := contains_iff.mp (by simpa using inside)
        rw [ih tail h, Table.get?_set]
        by_cases hname : key = name
        · subst hname
          have hrest : Table.lookup key rest = none := by
            rw [← Option.not_isSome_iff_eq_none, Table.lookup_isSome]
            exact fresh
          simp [hkey, hrest]
        · rw [if_neg hname, if_neg hname]

theorem mem_takenBy {graph : InterferenceGraph} {coloring : Coloring} {name other : String}
    {register : Nat} (hn : other ∈ graph.neighbours name)
    (hc : coloring.get? other = some register) : register ∈ graph.takenBy coloring name :=
  List.mem_filterMap.mpr ⟨other, hn, hc⟩

theorem Apart.set {graph : InterferenceGraph} (proper : graph.Proper) {coloring : Coloring}
    (h : graph.Apart coloring) (name : String) :
    graph.Apart (coloring.set name (lowestFree (graph.takenBy coloring name))) := by
  intro a b ra rb hn ha hb
  rw [Table.get?_set] at ha hb
  by_cases hna : name = a
  · subst hna
    by_cases hnb : name = b
    · subst hnb
      exact absurd hn (proper.irrefl name)
    · rw [if_pos rfl] at ha
      rw [if_neg hnb] at hb
      cases ha
      intro eq
      exact lowestFree_not_mem _ (eq ▸ mem_takenBy hn hb)
  · rw [if_neg hna] at ha
    by_cases hnb : name = b
    · subst hnb
      rw [if_pos rfl] at hb
      cases hb
      intro eq
      exact lowestFree_not_mem _ (eq ▸ mem_takenBy (proper.symm hn) ha)
    · rw [if_neg hnb] at hb
      exact h hn ha hb

theorem colorFree_ok {graph : InterferenceGraph} (proper : graph.Proper) {count : Nat}
    {names : List String} {coloring coloring' : Coloring} (nodup : names.Nodup)
    (apart : graph.Apart coloring) (h : graph.colorFree count names coloring = .ok coloring') :
    graph.Apart coloring' ∧ (∀ name ∉ names, coloring'.get? name = coloring.get? name) ∧
      ∀ name ∈ names, ∃ register < count, coloring'.get? name = some register := by
  induction names generalizing coloring with
  | nil =>
    cases h
    exact ⟨apart, fun _ _ => rfl, by simp⟩
  | cons first rest ih =>
    obtain ⟨fresh, tail⟩ := List.nodup_cons.mp nodup
    simp only [colorFree] at h
    split at h
    · next hlt =>
      obtain ⟨apart', kept, colored⟩ := ih tail (apart.set proper first) h
      refine ⟨apart', fun name hname => ?_, fun name hname => ?_⟩
      · obtain ⟨ne, hrest⟩ := not_or.mp (mt List.mem_cons.mpr hname)
        rw [kept name hrest, Table.get?_set, if_neg (Ne.symm ne)]
      · rcases List.mem_cons.mp hname with rfl | hrest
        · refine ⟨_, hlt, ?_⟩
          rw [kept name fresh, Table.get?_set, if_pos rfl]
        · exact colored name hrest
    · cases h

/-- What a coloring of a graph promises. -/
structure Valid (graph : InterferenceGraph) (pins : Table Nat) (coloring : Coloring) : Prop where
  mem_vertices : ∀ {name register}, coloring.get? name = some register → name ∈ graph.vertices
  colored : ∀ {name}, name ∈ graph.vertices → ∃ register, coloring.get? name = some register
  apart : graph.Apart coloring
  pinned : ∀ {name register}, pins.get? name = some register → name ∈ graph.vertices →
    coloring.get? name = some register

theorem mem_free {graph : InterferenceGraph} {pins : Table Nat} {name : String} :
    name ∈ graph.free pins ↔ name ∈ graph.vertices ∧ name ∉ pins.keys := by
  simp only [free, List.mem_reverse, List.mem_filter, Bool.not_eq_true', ← Bool.not_eq_true,
    Table.contains_iff]

/-- The pinned vertices may not clash among themselves, for nothing moves them. -/
theorem valid_of_color {graph : InterferenceGraph} (proper : graph.Proper) {limit : Nat}
    {pins : Table Nat} {coloring : Coloring} (distinct : graph.Apart pins)
    (h : graph.color limit pins = .ok coloring) : graph.Valid pins coloring := by
  unfold color at h
  obtain ⟨count, -, h⟩ := bind_ok.mp h
  obtain ⟨start, hstart, h⟩ := bind_ok.mp h
  have hget := colorPinned_ok pins.nodup hstart
  have startOf : ∀ {name register}, start.get? name = some register →
      name ∈ graph.vertices ∧ pins.get? name = some register := by
    intro name register hname
    rw [hget, Table.get?_empty] at hname
    split at hname
    · next hin => exact ⟨hin, by simpa [Table.get?] using hname⟩
    · cases hname
  have apartStart : graph.Apart start := fun hn ha hb => distinct hn (startOf ha).2 (startOf hb).2
  have nodup : (graph.free pins).Nodup :=
    List.nodup_reverse.mpr (graph.vertices_nodup.filter _)
  obtain ⟨apart, kept, colored⟩ := colorFree_ok proper nodup apartStart h
  have hpinned : ∀ {name register}, pins.get? name = some register → name ∈ graph.vertices →
      coloring.get? name = some register := by
    intro name register hpin hin
    have hkey : name ∈ pins.keys := Table.mem_keys_iff.mpr ⟨register, hpin⟩
    rw [kept name fun hfree => (mem_free.mp hfree).2 hkey, hget, if_pos hin]
    exact congrArg (Option.or · _) hpin
  refine ⟨?_, ?_, apart, hpinned⟩
  · intro name register hname
    by_cases hfree : name ∈ graph.free pins
    · exact (mem_free.mp hfree).1
    · rw [kept name hfree] at hname
      exact (startOf hname).1
  · intro name hin
    by_cases hkey : name ∈ pins.keys
    · obtain ⟨register, hpin⟩ := Table.mem_keys_iff.mp hkey
      exact ⟨register, hpinned hpin hin⟩
    · obtain ⟨register, -, hregister⟩ := colored name (mem_free.mpr ⟨hin, hkey⟩)
      exact ⟨register, hregister⟩

-- ---------------------------------------------------------------------------
-- The registers that are used
-- ---------------------------------------------------------------------------

/-- How many registers there are to choose from: as many as the limit says, or without a limit as many
as a vertex and its neighbours can take up and as the largest pin calls for. -/
def palette (graph : InterferenceGraph) (limit : Nat) (pins : Table Nat) : Nat :=
  if 0 < limit then limit
  else max (graph.maxDegree + 1) ((pins.values.max?.map (· + 1)).getD 0)

theorem foldl_max_succ (registers : List Nat) (start : Nat) :
    registers.foldl (fun most register => max most (register + 1)) start
      = max start ((registers.max?.map (· + 1)).getD 0) := by
  induction registers generalizing start with
  | nil => simp
  | cons register rest ih =>
    rw [List.foldl_cons, ih, List.max?_cons]
    cases rest.max? with
    | none => simp
    | some most =>
      simp only [Option.map_some, Option.getD_some, Option.elim_some]
      omega

theorem registerCount_ok {graph : InterferenceGraph} {limit count : Nat} {pins : Table Nat}
    (h : graph.registerCount limit pins = .ok count) : count = graph.palette limit pins := by
  unfold registerCount at h
  unfold palette
  split at h
  · next unlimited =>
    cases h
    rw [if_neg (by omega), foldl_max_succ, Nat.zero_max]
  · next limited =>
    split at h
    · cases h
    · cases h
      rw [if_pos (by omega)]

/-- No register from `count` on is used. -/
def UsesBelow (count : Nat) (coloring : Coloring) : Prop :=
  ∀ name register, coloring.get? name = some register → register < count

theorem UsesBelow.set {count : Nat} {coloring : Coloring} (h : UsesBelow count coloring) {name : String}
    {register : Nat} (hlt : register < count) : UsesBelow count (coloring.set name register) := by
  intro other found hfound
  rw [Table.get?_set] at hfound
  split at hfound
  · cases hfound
    exact hlt
  · exact h other found hfound

theorem UsesBelow.colorPinned {graph : InterferenceGraph} {count : Nat} {pins : List (String × Nat)}
    {coloring coloring' : Coloring} (below : UsesBelow count coloring)
    (h : graph.colorPinned count pins coloring = .ok coloring') : UsesBelow count coloring' := by
  induction pins generalizing coloring with
  | nil =>
    cases h
    exact below
  | cons pin rest ih =>
    simp only [InterferenceGraph.colorPinned] at h
    split at h
    · exact ih below h
    · split at h
      · cases h
      · next hlt => exact ih (below.set (Nat.lt_of_not_le hlt)) h

theorem UsesBelow.colorFree {graph : InterferenceGraph} {count : Nat} {names : List String}
    {coloring coloring' : Coloring} (below : UsesBelow count coloring)
    (h : graph.colorFree count names coloring = .ok coloring') : UsesBelow count coloring' := by
  induction names generalizing coloring with
  | nil =>
    cases h
    exact below
  | cons name rest ih =>
    simp only [InterferenceGraph.colorFree] at h
    split at h
    · next hlt => exact ih (below.set hlt) h
    · cases h

theorem usesBelow_of_color {graph : InterferenceGraph} {limit : Nat} {pins : Table Nat}
    {coloring : Coloring} (h : graph.color limit pins = .ok coloring) :
    UsesBelow (graph.palette limit pins) coloring := by
  unfold color at h
  obtain ⟨count, hcount, h⟩ := bind_ok.mp h
  obtain ⟨start, hstart, h⟩ := bind_ok.mp h
  rw [← registerCount_ok hcount]
  have none_used : UsesBelow count ∅ := fun _ _ hname => nomatch hname
  exact (none_used.colorPinned hstart).colorFree h

/-- The pins of neighbours have to differ, for no pinned vertex is moved to make room for another. -/
theorem color_valid (additions : List Addition) {limit : Nat} {pins : Table Nat} {coloring : Coloring}
    (distinct : ∀ a b ra rb, (ofAdditions additions).hasEdge a b = true → pins.get? a = some ra →
      pins.get? b = some rb → ra ≠ rb)
    (h : (ofAdditions additions).color limit pins = .ok coloring) :
    (∀ name, name ∈ coloring.keys ↔ name ∈ (ofAdditions additions).vertices) ∧
      (∀ a b, (ofAdditions additions).hasEdge a b = true → coloring.get? a ≠ coloring.get? b) ∧
      (∀ name register, pins.get? name = some register → name ∈ (ofAdditions additions).vertices →
        coloring.get? name = some register) ∧
      ∀ name register, coloring.get? name = some register →
        register < (ofAdditions additions).palette limit pins := by
  have proper := proper_ofAdditions additions
  have apart : (ofAdditions additions).Apart pins :=
    fun hn => distinct _ _ _ _ (NameSet.contains_iff.mpr hn)
  have valid := valid_of_color proper apart h
  refine ⟨fun name => ⟨?_, ?_⟩, ?_, fun name register => valid.pinned,
    usesBelow_of_color h⟩
  · intro hname
    obtain ⟨register, hregister⟩ := Table.mem_keys_iff.mp hname
    exact valid.mem_vertices hregister
  · intro hname
    exact Table.mem_keys_iff.mpr (valid.colored hname)
  · intro a b hedge heq
    have hn : b ∈ (ofAdditions additions).neighbours a := NameSet.contains_iff.mp hedge
    obtain ⟨ra, hra⟩ := valid.colored (proper.mem_vertices hn)
    exact valid.apart hn hra (heq ▸ hra) rfl

/-- A square with one diagonal and a vertex by itself. Two neighbours are pinned, as is a name that is
no vertex. -/
def square : List Addition :=
  [.edge "a" "b", .edge "b" "c", .edge "c" "d", .vertex "e", .edge "d" "a", .edge "c" "a", .edge "d" "d"]

def squarePins : Table Nat := ⟨[("a", 4), ("d", 0), ("f", 4)], by decide⟩

def squareColoring : Coloring := ⟨[("a", 4), ("d", 0), ("e", 0), ("c", 1), ("b", 0)], by decide⟩

theorem color_valid_square :
    (ofAdditions square).color 0 squarePins = .ok squareColoring ∧
      (ofAdditions square).hasEdge "a" "d" = true ∧ (ofAdditions square).palette 0 squarePins = 5 ∧
      (∀ a b, (ofAdditions square).hasEdge a b = true →
        squareColoring.get? a ≠ squareColoring.get? b) ∧
      ∀ name register, squareColoring.get? name = some register → register < 5 := by
  have colored : (ofAdditions square).color 0 squarePins = .ok squareColoring := by decide +kernel
  have five : (ofAdditions square).palette 0 squarePins = 5 := by decide +kernel
  have distinct : ∀ a b ra rb, (ofAdditions square).hasEdge a b = true →
      squarePins.get? a = some ra → squarePins.get? b = some rb → ra ≠ rb := by
    have pairs : ∀ p ∈ squarePins.entries, ∀ q ∈ squarePins.entries,
        (ofAdditions square).hasEdge p.1 q.1 = true → p.2 ≠ q.2 := by decide +kernel
    intro a b ra rb hedge ha hb
    exact pairs _ (Table.get?_eq_some_iff.mp ha) _ (Table.get?_eq_some_iff.mp hb) hedge
  obtain ⟨-, apart, -, below⟩ := color_valid square distinct colored
  exact ⟨colored, by decide +kernel, five, apart, five ▸ below⟩

end InterferenceGraph

end ThreeAddress
