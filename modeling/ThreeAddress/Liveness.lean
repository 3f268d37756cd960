import ThreeAddress.Method
import ThreeAddress.NameSet

/-!
# Liveness

A variable is live where its present value may still be read. Each instruction has a node with the
variables it defines and uses and, growing towards the answer, those live before and after it. A pass
visits the nodes in order; passes are repeated until one changes nothing.

A pass over nodes whose successors exist is what `Liveness.pass` says it is; a successor that does not
exist contributes nothing there, and `Liveness.checkedPass` refuses it.
-/

namespace ThreeAddress

structure LiveNode where
  id : Nat
  defs : NameSet
  uses : NameSet
  liveIn : NameSet
  liveOut : NameSet
  /-- The instructions that may come next; leaving the method is not among them. -/
  succs : List Nat
  deriving DecidableEq, Repr

def Instruction.nextIds (inst : Instruction) : List Nat :=
  inst.successors.filterMap fun
    | .instruction id => some id
    | .exit => none

/-- The node of an instruction before any pass. -/
def Instruction.liveNode (inst : Instruction) : LiveNode where
  id := inst.id
  defs := .ofList inst.statement.defs
  uses := .ofList inst.statement.uses
  liveIn := ∅
  liveOut := ∅
  succs := inst.nextIds

/-- What is live before the node, as far as what is live after it is known. -/
def LiveNode.enter (node : LiveNode) : LiveNode :=
  { node with liveIn := node.liveIn ∪ (node.uses ∪ (node.liveOut \ node.defs)) }

namespace Liveness

def node? (nodes : List LiveNode) : (id : Nat) → Option LiveNode
  | 0 => none
  | index + 1 => nodes[index]?

def liveInOf (nodes : List LiveNode) (id : Nat) : NameSet :=
  match node? nodes id with
  | some node => node.liveIn
  | none => ∅

/-- All that is live before one of the given instructions. -/
def joined (nodes : List LiveNode) (ids : List Nat) : NameSet :=
  ids.foldl (fun names id => names ∪ liveInOf nodes id) ∅

/-- The node at `index` with its live-in set grown. -/
def enterAt (nodes : List LiveNode) (index : Nat) : List LiveNode :=
  nodes.modify index LiveNode.enter

/-- The node at `index` with its live-out set grown by what is live before its successors. -/
def leaveAt (nodes : List LiveNode) (index : Nat) : List LiveNode :=
  nodes.modify index fun node => { node with liveOut := node.liveOut ∪ joined nodes node.succs }

/-- Grows the live-in set and then the live-out set of the node at `index`; it may be its own
successor. -/
def visit (nodes : List LiveNode) (index : Nat) : List LiveNode :=
  leaveAt (enterAt nodes index) index

/-- Whether a set of the node at `index` has another size than before. -/
def grewAt (before after : List LiveNode) (index : Nat) : Bool :=
  match before[index]?, after[index]? with
  | some old, some new =>
    old.liveIn.size != new.liveIn.size || old.liveOut.size != new.liveOut.size
  | _, _ => false

/-- Visits the nodes with the given indices in turn, and says whether a set grew. -/
def visitAll (nodes : List LiveNode) : List Nat → List LiveNode × Bool
  | [] => (nodes, false)
  | index :: rest =>
    let visited := visit nodes index
    let after := visitAll visited rest
    (after.1, grewAt nodes visited index || after.2)

def pass (nodes : List LiveNode) : List LiveNode × Bool :=
  visitAll nodes (List.range nodes.length)

/-- Every name that occurs in some set of some node. -/
def allNames (nodes : List LiveNode) : NameSet :=
  nodes.foldl (fun names node =>
    names ∪ node.defs ∪ node.uses ∪ node.liveIn ∪ node.liveOut) ∅

/-- Each pass but the last adds one of the names to one of two sets of a node. -/
def passBound (nodes : List LiveNode) : Nat :=
  2 * nodes.length * (allNames nodes).size + 1

def settleWithin : Nat → List LiveNode → List LiveNode
  | 0, nodes => nodes
  | fuel + 1, nodes =>
    let next := pass nodes
    if next.2 then settleWithin fuel next.1 else next.1

/-- The nodes after passes until nothing changes. -/
def settle (nodes : List LiveNode) : List LiveNode :=
  settleWithin (passBound nodes) nodes

/-- A node, by its number, with a successor that does not exist. -/
structure Dangling where
  node : Nat
  succ : Nat
  deriving DecidableEq, Repr

def Dangling.message (dangling : Dangling) : String :=
  s!"instruction {dangling.node} has a dangling successor {dangling.succ}"

/-- The first successor that does not exist, in the order of a pass. -/
def dangling? (nodes : List LiveNode) : Option Dangling :=
  nodes.zipIdx.findSome? fun (node, index) =>
    (node.succs.find? fun succ => (node? nodes succ).isNone).map fun succ =>
      { node := index + 1, succ }

def checkedPass (nodes : List LiveNode) : Except Dangling (List LiveNode × Bool) :=
  match dangling? nodes with
  | some dangling => .error dangling
  | none => .ok (pass nodes)

end Liveness

/-- The liveness of every instruction, in order. -/
def Method.liveness (method : Method) : List LiveNode :=
  Liveness.settle (method.instructions.map Instruction.liveNode)

end ThreeAddress
