import ThreeAddress.Interference

/-!
# Interference graphs, edge by edge

`InterferenceGraph.Proper` holds of every graph that is made by adding vertices and edges: the relation
of being neighbours is symmetric, no vertex is its own neighbour, and neighbours are vertices. The graph
of a method has exactly the edges that some instruction asks for (`mem_neighbours_interference`), and no
vertices but the ends of these edges. `interference_exact` puts the two together.
-/

namespace ThreeAddress

namespace InterferenceGraph

structure Proper (graph : InterferenceGraph) : Prop where
  symm : ∀ {a b}, b ∈ graph.neighbours a → a ∈ graph.neighbours b
  irrefl : ∀ a, a ∉ graph.neighbours a
  mem_vertices : ∀ {a b}, b ∈ graph.neighbours a → a ∈ graph.vertices

@[simp] theorem neighbours_addVertex (graph : InterferenceGraph) (name other : String) :
    (graph.addVertex name).neighbours other = graph.neighbours other := by
  unfold addVertex
  split
  · rfl
  · next unknown =>
    have hnone : graph.adjacency.get? name = none := by
      simpa [contains, Table.contains] using unknown
    by_cases h : name = other
    · subst h
      simp [neighbours, hnone]
    · simp [neighbours, h]

theorem mem_neighbours_join {graph : InterferenceGraph} {a b name other : String}
    {ha : a ∈ graph.vertices} {hb : b ∈ graph.vertices} :
    other ∈ (graph.join a b ha hb).neighbours name ↔
      ((name = a ∧ other = b) ∨ (name = b ∧ other = a)) ∨ other ∈ graph.neighbours name := by
  have hadded : ∀ (adjacency : Table NameSet) (x y : String),
      other ∈ ((addNeighbour adjacency x y).get? name).getD ∅ ↔
        (name = x ∧ other = y) ∨ other ∈ (adjacency.get? name).getD ∅ := by
    intro adjacency x y
    by_cases h : x = name
    · subst h
      simp [addNeighbour]
    · simp [addNeighbour, h, Ne.symm h]
  simp only [neighbours, join, hadded, ← or_assoc]
  rw [or_comm (a := name = b ∧ other = a)]

theorem mem_neighbours_addEdge {graph : InterferenceGraph} {a b name other : String} :
    other ∈ (graph.addEdge a b).neighbours name ↔
      (a ≠ b ∧ ((name = a ∧ other = b) ∨ (name = b ∧ other = a))) ∨
        other ∈ graph.neighbours name := by
  unfold addEdge
  by_cases h : a = b
  · simp [h]
  · simp [h, mem_neighbours_join]

theorem vertices_addEdge (graph : InterferenceGraph) (a b : String) :
    (graph.addEdge a b).vertices = ((graph.addVertex a).addVertex b).vertices := by
  simp only [addEdge]
  split <;> rfl

theorem mem_vertices_addEdge {graph : InterferenceGraph} {a b name : String} :
    name ∈ (graph.addEdge a b).vertices ↔ name = a ∨ name = b ∨ name ∈ graph.vertices := by
  rw [vertices_addEdge, mem_vertices_addVertex, mem_vertices_addVertex, or_left_comm]

theorem proper_empty : empty.Proper :=
  ⟨fun h => absurd h (NameSet.not_mem_empty _), fun _ => NameSet.not_mem_empty _,
    fun h => absurd h (NameSet.not_mem_empty _)⟩

theorem Proper.addVertex {graph : InterferenceGraph} (h : graph.Proper) (name : String) :
    (graph.addVertex name).Proper := by
  refine ⟨?_, ?_, ?_⟩
  · intro a b hin
    rw [neighbours_addVertex] at hin ⊢
    exact h.symm hin
  · intro a hin
    rw [neighbours_addVertex] at hin
    exact h.irrefl a hin
  · intro a b hin
    rw [neighbours_addVertex] at hin
    exact mem_vertices_addVertex.mpr (.inr (h.mem_vertices hin))

theorem Proper.addEdge {graph : InterferenceGraph} (h : graph.Proper) (a b : String) :
    (graph.addEdge a b).Proper := by
  refine ⟨?_, ?_, ?_⟩
  · intro name other hin
    rw [mem_neighbours_addEdge] at hin ⊢
    rcases hin with ⟨ne, ⟨rfl, rfl⟩ | ⟨rfl, rfl⟩⟩ | hold
    · exact .inl ⟨ne, .inr ⟨rfl, rfl⟩⟩
    · exact .inl ⟨ne, .inl ⟨rfl, rfl⟩⟩
    · exact .inr (h.symm hold)
  · intro name hin
    rcases mem_neighbours_addEdge.mp hin with ⟨ne, ⟨rfl, eq⟩ | ⟨rfl, eq⟩⟩ | hold
    · exact ne eq
    · exact ne eq.symm
    · exact h.irrefl name hold
  · intro name other hin
    rw [mem_vertices_addEdge]
    rcases mem_neighbours_addEdge.mp hin with ⟨-, ⟨rfl, -⟩ | ⟨rfl, -⟩⟩ | hold
    · exact .inl rfl
    · exact .inr (.inl rfl)
    · exact .inr (.inr (h.mem_vertices hold))

/-- One call that adds to a graph. -/
inductive Addition where
  | vertex (name : String)
  | edge (a b : String)
  deriving DecidableEq, Repr

def add (graph : InterferenceGraph) : Addition → InterferenceGraph
  | .vertex name => graph.addVertex name
  | .edge a b => graph.addEdge a b

/-- The graph after the given additions to the empty one. -/
def ofAdditions (additions : List Addition) : InterferenceGraph := additions.foldl add empty

theorem proper_ofAdditions (additions : List Addition) : (ofAdditions additions).Proper := by
  have step : ∀ (additions : List Addition) (graph : InterferenceGraph), graph.Proper →
      (additions.foldl add graph).Proper := by
    intro additions
    induction additions with
    | nil => exact fun _ h => h
    | cons addition rest ih =>
      intro graph h
      refine ih _ ?_
      cases addition with
      | vertex name => exact h.addVertex name
      | edge a b => exact h.addEdge a b
  exact step additions empty proper_empty

/-- The call joins two different names, given in either order. -/
def Addition.Joins (addition : Addition) (a b : String) : Prop :=
  a ≠ b ∧ (addition = .edge a b ∨ addition = .edge b a)

theorem mem_neighbours_add {graph : InterferenceGraph} {addition : Addition} {a b : String} :
    b ∈ (graph.add addition).neighbours a ↔ addition.Joins a b ∨ b ∈ graph.neighbours a := by
  cases addition with
  | vertex name => simp [add, Addition.Joins]
  | edge x y =>
    simp only [add, Addition.Joins, mem_neighbours_addEdge, Addition.edge.injEq]
    constructor
    · rintro (⟨ne, ⟨rfl, rfl⟩ | ⟨rfl, rfl⟩⟩ | hold)
      · exact .inl ⟨ne, .inl ⟨rfl, rfl⟩⟩
      · exact .inl ⟨Ne.symm ne, .inr ⟨rfl, rfl⟩⟩
      · exact .inr hold
    · rintro (⟨ne, ⟨rfl, rfl⟩ | ⟨rfl, rfl⟩⟩ | hold)
      · exact .inl ⟨ne, .inl ⟨rfl, rfl⟩⟩
      · exact .inl ⟨Ne.symm ne, .inr ⟨rfl, rfl⟩⟩
      · exact .inr hold

theorem mem_neighbours_foldl_add {graph : InterferenceGraph} {additions : List Addition} {a b : String} :
    b ∈ (additions.foldl add graph).neighbours a ↔
      (∃ addition ∈ additions, addition.Joins a b) ∨ b ∈ graph.neighbours a := by
  induction additions generalizing graph with
  | nil => simp
  | cons addition rest ih =>
    rw [List.foldl_cons, ih, mem_neighbours_add]
    simp [or_assoc, or_left_comm]

theorem mem_neighbours_ofAdditions {additions : List Addition} {a b : String} :
    b ∈ (ofAdditions additions).neighbours a ↔
      a ≠ b ∧ (.edge a b ∈ additions ∨ .edge b a ∈ additions) := by
  have hempty : b ∉ empty.neighbours a := NameSet.not_mem_empty b
  rw [ofAdditions, mem_neighbours_foldl_add]
  simp only [hempty, or_false, Addition.Joins]
  constructor
  · rintro ⟨addition, hin, ne, rfl | rfl⟩
    · exact ⟨ne, .inl hin⟩
    · exact ⟨ne, .inr hin⟩
  · rintro ⟨ne, hin | hin⟩
    · exact ⟨_, hin, ne, .inl rfl⟩
    · exact ⟨_, hin, ne, .inr rfl⟩

theorem ofEdges_eq (pairs : List (String × String)) :
    ofEdges pairs = ofAdditions (pairs.map fun pair => .edge pair.1 pair.2) := by
  rw [ofAdditions, List.foldl_map]
  rfl

theorem mem_neighbours_ofEdges {pairs : List (String × String)} {a b : String} :
    b ∈ (ofEdges pairs).neighbours a ↔ a ≠ b ∧ ((a, b) ∈ pairs ∨ (b, a) ∈ pairs) := by
  simp [ofEdges_eq, mem_neighbours_ofAdditions]

/-- Every vertex of the graph has a neighbour. -/
def NoneAlone (graph : InterferenceGraph) : Prop :=
  ∀ name ∈ graph.vertices, ∃ other, other ∈ graph.neighbours name

theorem noneAlone_empty : empty.NoneAlone := fun _ h => absurd h List.not_mem_nil

theorem NoneAlone.addEdge {graph : InterferenceGraph} (h : graph.NoneAlone) {a b : String}
    (ne : a ≠ b) : (graph.addEdge a b).NoneAlone := by
  intro name hname
  simp only [mem_neighbours_addEdge]
  rcases mem_vertices_addEdge.mp hname with rfl | rfl | hold
  · exact ⟨b, .inl ⟨ne, .inl ⟨rfl, rfl⟩⟩⟩
  · exact ⟨a, .inl ⟨ne, .inr ⟨rfl, rfl⟩⟩⟩
  · obtain ⟨other, hother⟩ := h name hold
    exact ⟨other, .inr hother⟩

-- An edge from a name to itself would leave a vertex without a neighbour.
theorem NoneAlone.foldl_addEdge {graph : InterferenceGraph} (h : graph.NoneAlone)
    {pairs : List (String × String)} (ne : ∀ pair ∈ pairs, pair.1 ≠ pair.2) :
    (pairs.foldl (fun graph pair => graph.addEdge pair.1 pair.2) graph).NoneAlone := by
  induction pairs generalizing graph with
  | nil => exact h
  | cons pair rest ih =>
    obtain ⟨hpair, hrest⟩ := List.forall_mem_cons.mp ne
    exact ih (h.addEdge hpair) hrest

theorem hasEdge_iff {graph : InterferenceGraph} {a b : String} :
    graph.hasEdge a b = true ↔ b ∈ graph.neighbours a :=
  NameSet.contains_iff

end InterferenceGraph

theorem LiveNode.mem_conflicts {node : LiveNode} {a b : String} :
    (a, b) ∈ node.conflicts ↔ a ≠ b ∧ a ∈ node.liveIn ∧ (b ∈ node.defs ∨ b ∈ node.liveOut) := by
  simp only [conflicts, List.mem_flatMap, List.mem_map, List.mem_filter, bne_iff_ne,
    Prod.mk.injEq, ← NameSet.mem_def, NameSet.mem_union]
  constructor
  · rintro ⟨_, hlive, _, ⟨hother, ne⟩, rfl, rfl⟩
    exact ⟨Ne.symm ne, hlive, hother⟩
  · rintro ⟨ne, hlive, hother⟩
    exact ⟨a, hlive, b, ⟨hother, Ne.symm ne⟩, rfl, rfl⟩

theorem proper_interference (nodes : List LiveNode) : (interference nodes).Proper := by
  rw [interference, InterferenceGraph.ofEdges_eq]
  exact InterferenceGraph.proper_ofAdditions _

theorem mem_neighbours_interference {nodes : List LiveNode} {a b : String} :
    b ∈ (interference nodes).neighbours a ↔ a ≠ b ∧ ∃ node ∈ nodes,
      (a ∈ node.liveIn ∧ (b ∈ node.defs ∨ b ∈ node.liveOut)) ∨
      (b ∈ node.liveIn ∧ (a ∈ node.defs ∨ a ∈ node.liveOut)) := by
  rw [interference, InterferenceGraph.mem_neighbours_ofEdges]
  simp only [List.mem_flatMap, LiveNode.mem_conflicts]
  constructor
  · rintro ⟨ne, ⟨node, hnode, -, hab⟩ | ⟨node, hnode, -, hba⟩⟩
    · exact ⟨ne, node, hnode, .inl hab⟩
    · exact ⟨ne, node, hnode, .inr hba⟩
  · rintro ⟨ne, node, hnode, hab | hba⟩
    · exact ⟨ne, .inl ⟨node, hnode, ne, hab⟩⟩
    · exact ⟨ne, .inr ⟨node, hnode, Ne.symm ne, hba⟩⟩

theorem noneAlone_interference (nodes : List LiveNode) : (interference nodes).NoneAlone := by
  refine InterferenceGraph.noneAlone_empty.foldl_addEdge ?_
  rintro ⟨a, b⟩ hpair
  obtain ⟨node, -, hconflict⟩ := List.mem_flatMap.mp hpair
  exact (LiveNode.mem_conflicts.mp hconflict).1

/-- Two names are joined exactly if they differ and one of them is live into a node that defines the
other or keeps it alive. The vertices are the names that are joined to some other name. -/
theorem interference_exact (nodes : List LiveNode) (a b : String) :
    ((interference nodes).hasEdge a b = true ↔ a ≠ b ∧ ∃ node ∈ nodes,
      (a ∈ node.liveIn ∧ (b ∈ node.defs ∨ b ∈ node.liveOut)) ∨
      (b ∈ node.liveIn ∧ (a ∈ node.defs ∨ a ∈ node.liveOut))) ∧
    (a ∈ (interference nodes).vertices ↔ ∃ other, (interference nodes).hasEdge a other = true) := by
  simp only [InterferenceGraph.hasEdge_iff]
  refine ⟨mem_neighbours_interference, noneAlone_interference nodes a, ?_⟩
  rintro ⟨other, hother⟩
  exact (proper_interference nodes).mem_vertices hother

end ThreeAddress
