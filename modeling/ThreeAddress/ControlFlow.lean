import ThreeAddress.Method

/-!
# Control flow

`Method.relink` computes the label table of a body and the successors of every instruction. An
instruction falls through to the next one, a jump goes to its label, and a return, like falling off
the last instruction, goes to the exit.
-/

namespace ThreeAddress

inductive ControlFlowFault where
  | unknownLabel (method label : String)
  | duplicateLabel (method label : String)
  /-- A label with no instruction after it. -/
  | danglingLabel (method label : String)
  deriving DecidableEq, Repr

def ControlFlowFault.message : ControlFlowFault → String
  | .unknownLabel method label => s!"method `{method}` jumps to unknown label `{label}`"
  | .duplicateLabel method label =>
    s!"label `{label}` is defined more than once in method `{method}`"
  | .danglingLabel method label =>
    s!"label `{label}` in method `{method}` is not followed by an instruction"

namespace ControlFlow

/-- Enters the labels of one instruction, or names the first of them that is taken. -/
def enterLabels (id : Nat) : List String → Table Nat → Except String (Table Nat)
  | [], table => .ok table
  | label :: rest, table =>
    if table.contains label then .error label else enterLabels id rest (table.set label id)

/-- Enters the labels of a body in order, or names the first that is attached a second time. -/
def collectLabels : List Instruction → Table Nat → Except String (Table Nat)
  | [], table => .ok table
  | inst :: rest, table =>
    match enterLabels inst.id inst.labels table with
    | .ok table => collectLabels rest table
    | .error label => .error label

def target (labels : Table Nat) (label : String) : Except String Successor :=
  match labels.get? label with
  | some id => .ok (.instruction id)
  | none => .error label

/-- Where control may go after a statement that is followed by `next`. Fails with the label of a jump
that leads nowhere. -/
def successors (labels : Table Nat) (next : Successor) : Statement → Except String (List Successor)
  | .goto label =>
    match target labels label with
    | .ok reached => .ok [reached]
    | .error label => .error label
  | .branch _ label =>
    match target labels label with
    | .ok reached => .ok [reached, next]
    | .error label => .error label
  | .ret .. => .ok [.exit]
  | _ => .ok [next]

/-- What follows the instruction at `index` if `rest` is the body after it. -/
def next (index : Nat) (rest : List Instruction) : Successor :=
  if rest.isEmpty then .exit else .instruction (index + 2)

/-- Fills in the successors of the instructions from `index` on. At a jump that leads nowhere this
stops, names the label, and leaves the jump and all after it as they were. -/
def link (labels : Table Nat) : Nat → List Instruction → List Instruction × Option String
  | _, [] => ([], none)
  | index, inst :: rest =>
    match successors labels (next index rest) inst.statement with
    -- Nothing from here on is touched.
    | .error label => (inst :: rest, some label)
    | .ok succs =>
      let linked := link labels (index + 1) rest
      ({ inst with successors := succs } :: linked.1, linked.2)

end ControlFlow

/-- The method with a new label table and new successors, and what is wrong with its labels. A label
attached twice leaves the method as it was. A jump to an unknown label comes to light later, when the
label table is new already and so are the successors before the jump. -/
def Method.relink (method : Method) : Method × Option ControlFlowFault :=
  match ControlFlow.collectLabels method.instructions ∅ with
  | .error label => (method, some (.duplicateLabel method.name label))
  | .ok labels =>
    let linked := ControlFlow.link labels 0 method.instructions
    ({ method with labels, instructions := linked.1 },
      linked.2.map (ControlFlowFault.unknownLabel method.name))

end ThreeAddress
