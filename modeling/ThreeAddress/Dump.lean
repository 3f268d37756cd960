import ThreeAddress.Interference
import ThreeAddress.Text.Cluster

/-!
# Dumps of the analyses

The liveness and the interference of a method as text. Dumps are laid out for eighty columns: the four
sets of an instruction share a line if they fit, and else have a line each. A cluster of characters
takes one column.
-/

namespace ThreeAddress

/-- The analyses that can be dumped. -/
inductive Stage where
  | liveness
  | interference
  deriving DecidableEq, Repr

def Stage.name : Stage → String
  | .liveness => "liveness"
  | .interference => "interference"

namespace Dump

def columns : Nat := 80

def commaSeparated (names : List String) : String := ", ".intercalate names

/-- A heading with an indented list of entries under it. -/
def titled (title : String) (entries : List String) : String :=
  title ++ "\n  " ++ "\n  ".intercalate entries ++ "\n"

def setText (title : String) (names : NameSet) : String :=
  title ++ " \x7b" ++ commaSeparated names.names ++ "\x7d"

def setTexts (node : LiveNode) : List String :=
  [setText "def" node.defs, setText "use" node.uses, setText "in" node.liveIn,
    setText "out" node.liveOut]

/-- The sets of an instruction stand this far from the left. -/
def setIndent : Nat := 7

def indented (text : String) : String := String.ofList (List.replicate setIndent ' ') ++ text

/-- The columns that a name takes, one for each cluster. In a name of ASCII characters each of them takes
one, also in a line break that is made of two. -/
def nameWidth (name : String) : Nat :=
  if name.toList.all fun c => c.toNat < 128 then name.length else clusterCount name.toList

def namesWidth : List String → Nat
  | [] => 0
  | [name] => nameWidth name
  | name :: rest => nameWidth name + ", ".length + namesWidth rest

/-- The columns that a set takes. Its names are measured apart, so that none joins what is before it. -/
def setWidth (title : String) (names : NameSet) : Nat :=
  title.length + " \x7b".length + namesWidth names.names + "\x7d".length

/-- The columns that the four sets take on one line. -/
def setsWidth (node : LiveNode) : Nat :=
  setIndent + setWidth "def" node.defs + 1 + setWidth "use" node.uses + 1
    + setWidth "in" node.liveIn + 1 + setWidth "out" node.liveOut

def sets (node : LiveNode) : String :=
  if setsWidth node ≤ columns then indented (" ".intercalate (setTexts node))
  else "\n".intercalate ((setTexts node).map indented)

def liveNode (inst : Instruction) (node : LiveNode) : String :=
  toString node.id ++ "  " ++ inst.statement.text ++ "\n" ++ sets node

def liveness (method : Method) : String :=
  titled ("liveness of " ++ method.name) (method.instructions.zipWith liveNode method.liveness)

def interference (method : String) (graph : InterferenceGraph) : String :=
  titled ("interference of " ++ method) (graph.vertices.map fun name =>
    name ++ " -- " ++ commaSeparated (graph.neighbours name).names)

/-- The dump of one stage of a method. -/
def ofStage (method : Method) : Stage → String
  | .liveness => liveness method
  | .interference => interference method.name method.interference

end Dump

end ThreeAddress
