import Mathlib.Data.List.Basic
import Mathlib.Data.List.Nodup
import ThreeAddress.Proofs.Conflict
import ThreeAddress.Proofs.Success

/-!
# What a graph keeps of its additions

A graph is made by calls that add a vertex or an edge. `InterferenceGraph.records_ofAdditions` says that the
graph can be read off these calls: its vertices are the names in them, each where it was mentioned first, the
table of neighbours has the same names, and two names are joined exactly if some call joins them. The edges
come out of the order and the table together, each once and with the vertex in front that was mentioned first
(`mem_edges_iff`, `count_edges`).
-/

namespace ThreeAddress

namespace InterferenceGraph

variable {graph : InterferenceGraph} {names : List String}

/-- The names that a call mentions, in order. -/
def Addition.mentions : Addition → List String
  | .vertex name => [name]
  | .edge a b => [a, b]

-- ---------------------------------------------------------------------------
-- The vertices
-- ---------------------------------------------------------------------------

theorem vertices_addVertex (graph : InterferenceGraph) (name : String) :
    (graph.addVertex name).vertices
      = if name ∈ graph.vertices then graph.vertices else graph.vertices ++ [name] := by
  unfold addVertex
  split
  · next known => exact (if_pos (contains_iff.mp known)).symm
  · next unknown => exact (if_neg (mt contains_iff.mpr unknown)).symm

/-- The vertices are the given names, each where it stands first. -/
def Lists (graph : InterferenceGraph) (names : List String) : Prop := graph.vertices = names.eraseDups

theorem Lists.addVertex (h : graph.Lists names) (name : String) :
    (graph.addVertex name).Lists (names ++ [name]) := by
  unfold Lists at h ⊢
  simp only [vertices_addVertex, eraseDups_snoc, h, List.mem_eraseDups]

theorem Lists.add (h : graph.Lists names) (addition : Addition) :
    (graph.add addition).Lists (names ++ addition.mentions) := by
  cases addition with
  | vertex name => exact h.addVertex name
  | edge a b =>
    have hboth := (h.addVertex a).addVertex b
    unfold Lists at hboth ⊢
    simp only [InterferenceGraph.add, vertices_addEdge, hboth]
    simp [Addition.mentions]

theorem Lists.foldl_add (h : graph.Lists names) (additions : List Addition) :
    (additions.foldl InterferenceGraph.add graph).Lists (names ++ additions.flatMap Addition.mentions) := by
  induction additions generalizing graph names with
  | nil => simpa using h
  | cons addition rest ih => simpa using ih (h.add addition)

theorem lists_ofAdditions (additions : List Addition) :
    (ofAdditions additions).Lists (additions.flatMap Addition.mentions) := by
  have none : empty.Lists [] := rfl
  exact none.foldl_add additions

-- ---------------------------------------------------------------------------
-- The edges
-- ---------------------------------------------------------------------------

/-- The pairs that are listed are those in which the first name stands before the second. -/
theorem mem_edgesAmong {a b : String} (nodup : names.Nodup) :
    (a, b) ∈ graph.edgesAmong names ↔
      graph.hasEdge a b = true ∧ b ∈ names ∧ names.idxOf a < names.idxOf b := by
  induction names with
  | nil => simp [edgesAmong]
  | cons name later ih =>
    obtain ⟨fresh, nodup⟩ := List.nodup_cons.mp nodup
    simp only [edgesAmong, List.mem_append, List.mem_map, List.mem_filter, ih nodup]
    by_cases ha : name = a
    · subst ha
      -- The rest of the list holds pairs of later names only.
      have hlast : ¬ later.idxOf name < later.idxOf b := by
        rw [List.idxOf_of_notMem fresh]
        exact Nat.not_lt.mpr List.idxOf_le_length
      by_cases hb : name = b
      · subst hb
        simp [fresh]
      · simp [hlast, hb, Ne.symm hb, List.idxOf_cons_ne, and_comm]
    · by_cases hb : name = b
      · subst hb
        simp [ha, fresh]
      · simp [ha, hb, Ne.symm hb, List.idxOf_cons_ne]

theorem mem_edges_iff (proper : graph.Proper) {a b : String} :
    (a, b) ∈ graph.edges ↔
      graph.hasEdge a b = true ∧ graph.vertices.idxOf a < graph.vertices.idxOf b := by
  unfold edges
  rw [mem_edgesAmong graph.vertices_nodup]
  constructor
  · rintro ⟨hedge, -, hlt⟩
    exact ⟨hedge, hlt⟩
  · rintro ⟨hedge, hlt⟩
    exact ⟨hedge, proper.mem_vertices (proper.symm (hasEdge_iff.mp hedge)), hlt⟩

theorem mem_vertices_of_mem_edges (proper : graph.Proper) {a b : String} (h : (a, b) ∈ graph.edges) :
    a ∈ graph.vertices ∧ b ∈ graph.vertices := by
  have hn := hasEdge_iff.mp ((mem_edges_iff proper).mp h).1
  exact ⟨proper.mem_vertices hn, proper.mem_vertices (proper.symm hn)⟩

theorem nodup_edgesAmong (nodup : names.Nodup) : (graph.edgesAmong names).Nodup := by
  induction names with
  | nil => exact List.nodup_nil
  | cons name later ih =>
    obtain ⟨fresh, nodup⟩ := List.nodup_cons.mp nodup
    have hfirst : ((later.filter (graph.hasEdge name)).map (name, ·)).Nodup :=
      (nodup.filter _).map fun _ _ h => (Prod.mk.inj h).2
    refine hfirst.append (ih nodup) ?_
    rintro ⟨a, b⟩ hin hlater
    obtain ⟨other, -, heq⟩ := List.mem_map.mp hin
    cases heq
    obtain ⟨-, -, hlt⟩ := (mem_edgesAmong nodup).mp hlater
    rw [List.idxOf_of_notMem fresh] at hlt
    exact Nat.not_lt.mpr List.idxOf_le_length hlt

theorem edges_nodup (graph : InterferenceGraph) : graph.edges.Nodup := nodup_edgesAmong graph.vertices_nodup

/-- Of the two ways to write an edge the list has one, and has it once. -/
theorem count_edges (proper : graph.Proper) {a b : String} (h : graph.hasEdge a b = true) :
    graph.edges.count (a, b) + graph.edges.count (b, a) = 1 := by
  have hn : b ∈ graph.neighbours a := hasEdge_iff.mp h
  have hback : graph.hasEdge b a = true := hasEdge_iff.mpr (proper.symm hn)
  have hne : graph.vertices.idxOf a ≠ graph.vertices.idxOf b := by
    intro heq
    obtain rfl := (List.idxOf_inj (proper.mem_vertices hn)).mp heq
    exact proper.irrefl a hn
  simp only [graph.edges_nodup.count, mem_edges_iff proper, h, hback, true_and]
  split <;> split <;> omega

-- ---------------------------------------------------------------------------
-- The graph as a whole
-- ---------------------------------------------------------------------------

/-- What the graph keeps of the calls that made it. -/
structure Records (graph : InterferenceGraph) (additions : List Addition) : Prop where
  /-- Every name that was mentioned is listed once, at the place of its first mention. -/
  order : graph.order = (additions.flatMap Addition.mentions).eraseDups
  nodup : graph.order.Nodup
  keys : graph.order.Perm graph.adjacency.keys
  symm : ∀ a b, graph.hasEdge a b = graph.hasEdge b a
  irrefl : ∀ a, graph.hasEdge a a = false
  neighbours : ∀ a, ∀ b ∈ graph.neighbours a, b ∈ graph.order
  hasEdge : ∀ a b, graph.hasEdge a b = true ↔
    a ≠ b ∧ (.edge a b ∈ additions ∨ .edge b a ∈ additions)
  edges : ∀ a b, (a, b) ∈ graph.edges →
    graph.hasEdge a b = true ∧ graph.order.idxOf a < graph.order.idxOf b
  once : ∀ a b, graph.hasEdge a b = true →
    graph.edges.count (a, b) + graph.edges.count (b, a) = 1

theorem records_ofAdditions (additions : List Addition) : (ofAdditions additions).Records additions := by
  have proper := proper_ofAdditions additions
  refine ⟨lists_ofAdditions additions, (ofAdditions additions).nodup, ?_, ?_, ?_, ?_,
    fun a b => hasEdge_iff.trans mem_neighbours_ofAdditions, fun a b => (mem_edges_iff proper).mp,
    fun a b => count_edges proper⟩
  · exact (List.perm_ext_iff_of_nodup (ofAdditions additions).nodup (Table.keys_nodup _)).mpr
      (ofAdditions additions).mem_order
  · intro a b
    rw [Bool.eq_iff_iff, hasEdge_iff, hasEdge_iff]
    exact ⟨proper.symm, proper.symm⟩
  · intro a
    simpa [← hasEdge_iff] using proper.irrefl a
  · intro a b hn
    exact proper.mem_vertices (proper.symm hn)

end InterferenceGraph

end ThreeAddress
