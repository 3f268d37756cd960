import ThreeAddress.Liveness

/-!
# Interference

Two variables interfere if they must not share a register: one is live into an instruction that
defines the other or keeps it alive. The graph of all such pairs keeps its vertices in the order in
which they were first mentioned.
-/

namespace ThreeAddress

/-- The order of the vertices and the table of their neighbours are kept apart, and every name in one of
them is in the other. -/
structure InterferenceGraph where
  /-- The vertices, the one mentioned first in front. -/
  order : List String
  adjacency : Table NameSet
  nodup : order.Nodup
  mem_order : ∀ name, name ∈ order ↔ name ∈ adjacency.keys
  deriving DecidableEq, Repr

namespace InterferenceGraph

def empty : InterferenceGraph := ⟨[], ∅, List.nodup_nil, fun _ => Iff.rfl⟩

def vertices (graph : InterferenceGraph) : List String := graph.order

def size (graph : InterferenceGraph) : Nat := graph.order.length

def contains (graph : InterferenceGraph) (name : String) : Bool := graph.adjacency.contains name

def neighbours (graph : InterferenceGraph) (name : String) : NameSet :=
  (graph.adjacency.get? name).getD ∅

def degree (graph : InterferenceGraph) (name : String) : Nat := (graph.neighbours name).size

def maxDegree (graph : InterferenceGraph) : Nat :=
  graph.adjacency.values.foldl (fun most names => max most names.size) 0

def hasEdge (graph : InterferenceGraph) (a b : String) : Bool := (graph.neighbours a).contains b

theorem vertices_nodup (graph : InterferenceGraph) : graph.vertices.Nodup := graph.nodup

theorem contains_iff {graph : InterferenceGraph} {name : String} :
    graph.contains name = true ↔ name ∈ graph.vertices :=
  Table.contains_iff.trans (graph.mem_order name).symm

def addVertex (graph : InterferenceGraph) (name : String) : InterferenceGraph :=
  if known : graph.contains name then graph
  else
    { order := graph.order ++ [name]
      adjacency := graph.adjacency.set name ∅
      nodup := by
        have fresh : ∀ other ∈ graph.order, other ≠ name :=
          fun _ h heq => known (contains_iff.mpr (heq ▸ h))
        simpa [List.nodup_append, graph.nodup] using fresh
      mem_order := by
        intro other
        simp [graph.mem_order, or_comm] }

@[simp] theorem mem_vertices_addVertex {graph : InterferenceGraph} {name other : String} :
    other ∈ (graph.addVertex name).vertices ↔ other = name ∨ other ∈ graph.vertices := by
  unfold addVertex
  split
  · next known =>
    constructor
    · exact Or.inr
    · rintro (rfl | h)
      · exact contains_iff.mp known
      · exact h
  · simp [vertices, or_comm]

/-- Makes `b` a neighbour of `a`, but not the other way round. A name that has no entry gets one. -/
def addNeighbour (adjacency : Table NameSet) (a b : String) : Table NameSet :=
  adjacency.set a (((adjacency.get? a).getD ∅).insert b)

/-- Makes two vertices neighbours of each other. -/
def join (graph : InterferenceGraph) (a b : String) (ha : a ∈ graph.vertices)
    (hb : b ∈ graph.vertices) : InterferenceGraph :=
  { graph with
    adjacency := addNeighbour (addNeighbour graph.adjacency a b) b a
    mem_order := by
      intro name
      simp only [addNeighbour, Table.mem_keys_set, ← graph.mem_order]
      constructor
      · exact fun h => .inr (.inr h)
      · rintro (rfl | rfl | h)
        · exact hb
        · exact ha
        · exact h }

/-- Adds both vertices, and the edge between them unless they are the same. -/
def addEdge (graph : InterferenceGraph) (a b : String) : InterferenceGraph :=
  let both := (graph.addVertex a).addVertex b
  if a = b then both else both.join a b (by simp [both]) (by simp [both])

/-- Each vertex with the later ones that are its neighbours. -/
def edgesAmong (graph : InterferenceGraph) : List String → List (String × String)
  | [] => []
  | name :: later => (later.filter (graph.hasEdge name)).map (name, ·) ++ edgesAmong graph later

/-- Every edge once, the vertex mentioned first in front. -/
def edges (graph : InterferenceGraph) : List (String × String) := graph.edgesAmong graph.vertices

def ofEdges (pairs : List (String × String)) : InterferenceGraph :=
  pairs.foldl (fun graph pair => graph.addEdge pair.1 pair.2) empty

end InterferenceGraph

/-- The pairs that one instruction keeps apart. -/
def LiveNode.conflicts (node : LiveNode) : List (String × String) :=
  node.liveIn.names.flatMap fun live =>
    ((node.defs ∪ node.liveOut).names.filter (· != live)).map (live, ·)

def interference (nodes : List LiveNode) : InterferenceGraph :=
  .ofEdges (nodes.flatMap LiveNode.conflicts)

def Method.interference (method : Method) : InterferenceGraph :=
  ThreeAddress.interference method.liveness

end ThreeAddress
