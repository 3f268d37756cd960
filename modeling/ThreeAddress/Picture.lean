import ThreeAddress.Allocation

/-!
# Pictures of interference

The interference graphs of all methods of a class as one graph in the language of graph drawing tools.
Every vertex is a node of its own, labelled with its method, its name and its register.
-/

namespace ThreeAddress

structure Picture where
  labels : List String
  /-- Pairs of positions in `labels`. -/
  edges : List (Nat × Nat)
  deriving DecidableEq, Repr

namespace Picture

def nodeLabel (method : Method) (name : String) : String :=
  match method.register? name with
  | some register => method.name ++ "." ++ name ++ " (" ++ toString register ++ ")"
  | none => method.name ++ "." ++ name

/-- The edges of a graph by the positions of their vertices. -/
def numberedEdges (graph : InterferenceGraph) (first : Nat) : List (Nat × Nat) :=
  graph.edges.filterMap fun (a, b) => do
    let i ← graph.vertices.idxOf? a
    let j ← graph.vertices.idxOf? b
    pure (first + i, first + j)

def addMethod (picture : Picture) (method : Method) : Picture :=
  let graph := method.interference
  { labels := picture.labels ++ graph.vertices.map (nodeLabel method)
    edges := picture.edges ++ numberedEdges graph picture.labels.length }

def ofClass (unit : ClassUnit) : Picture :=
  unit.methods.foldl addMethod ⟨[], []⟩

/-- A character of a label. What is not plain printable text is escaped, by its number if it has no
short escape. -/
def escapeChar (c : Char) : String :=
  if c = '\t' then "\\t"
  else if c = '\r' then "\\r"
  else if c = '\n' then "\\n"
  else if c = '\x27' || c = '"' || c = '\\' then "\\" ++ c.toString
  else if ' ' ≤ c && c ≤ '~' then c.toString
  else "\\u\x7b" ++ String.ofList (Nat.toDigits 16 c.toNat) ++ "\x7d"

def escape (label : String) : String := String.join (label.toList.map escapeChar)

def nodeLine (label : String) (index : Nat) : String :=
  "    N" ++ toString index ++ "[label=\"" ++ escape label ++ "\"];\n"

def edgeLine (edge : Nat × Nat) : String :=
  "    N" ++ toString edge.1 ++ " -- N" ++ toString edge.2 ++ "[label=\"\"];\n"

def text (picture : Picture) : String :=
  "graph interference \x7b\n"
    ++ String.join (picture.labels.zipIdx.map fun (label, index) => nodeLine label index)
    ++ String.join (picture.edges.map edgeLine) ++ "\x7d\n"

end Picture

end ThreeAddress
