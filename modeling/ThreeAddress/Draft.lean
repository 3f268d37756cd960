import ThreeAddress.ControlFlow

/-!
# Drafts of methods

A draft collects a signature and a body step by step. `Draft.build` numbers the instructions, lays
out the variables in registers and links the control flow, or says what is wrong with the labels.
-/

namespace ThreeAddress

namespace VariableLayout

/-- Gives a new name the next free register. A name that is known already keeps what it has. -/
def declare (vars : Table Variable) (name : String) (ty : Ty) (scope : Scope) : Table Variable :=
  if vars.contains name then vars else vars.set name { register := vars.size, ty, scope }

/-- Declares the variables of an element as locals, an array before the variables of its index. -/
def declareElement (vars : Table Variable) : Element → Table Variable
  | .literal .. => vars
  | .operand name ty => if ty.isClassRef then vars else declare vars name ty .localVar
  | .slot name index ty => declareElement (declare vars name (.array ty) .localVar) index

/-- The elements of a statement in the order in which they declare variables: the destination of an
assignment, then all that is read. -/
def mentions : Statement → List Element
  | .assign dest ty rhs => dest :: (Statement.assign dest ty rhs).operands
  | statement => statement.operands

def signature (isStatic : Bool) (params : List Parameter) : Table Variable :=
  let start := if isStatic then ∅ else declare ∅ "this" .receiver .receiver
  params.foldl (fun vars param => declare vars param.name param.ty .parameter) start

/-- In an instance method `this` has register 0. The parameters follow in order, then every other
variable in the order of first mention. -/
def layout (isStatic : Bool) (params : List Parameter) (body : List Statement) : Table Variable :=
  (body.flatMap mentions).foldl declareElement (signature isStatic params)

end VariableLayout

structure Draft where
  name : String
  access : Access
  isStatic : Bool
  isFinal : Bool
  isConstructor : Bool
  params : List Parameter
  ret : Ty
  /-- The labels that wait for the next instruction. -/
  pending : List String
  body : List (List String × Statement)
  deriving DecidableEq, Repr

namespace Draft

def new (name : String) (ret : Ty) : Draft where
  name := name
  access := .pub
  isStatic := false
  isFinal := false
  isConstructor := false
  params := []
  ret := ret
  pending := []
  body := []

def constructorName : String := "<init>"

def constructor : Draft :=
  { new constructorName .void with isConstructor := true }

def addParam (draft : Draft) (name : String) (ty : Ty) : Draft :=
  { draft with params := draft.params ++ [{ name, ty }] }

/-- Attaches a label to the next instruction. -/
def label (draft : Draft) (label : String) : Draft :=
  { draft with pending := draft.pending ++ [label] }

/-- Adds an instruction, which takes the labels that were waiting. -/
def push (draft : Draft) (statement : Statement) : Draft :=
  { draft with pending := [], body := draft.body ++ [(draft.pending, statement)] }

/-- The number that the last instruction pushed will have. -/
def lastId (draft : Draft) : Nat := draft.body.length

def instructions (draft : Draft) : List Instruction :=
  draft.body.zipIdx.map fun line =>
    { id := line.2 + 1, labels := line.1.1, successors := [], statement := line.1.2 }

/-- The method before its control flow is linked. -/
def unlinked (draft : Draft) : Method where
  name := draft.name
  access := draft.access
  isStatic := draft.isStatic
  isFinal := draft.isFinal
  isConstructor := draft.isConstructor
  params := draft.params
  ret := draft.ret
  vars := VariableLayout.layout draft.isStatic draft.params (draft.body.map Prod.snd)
  instructions := draft.instructions
  labels := ∅

def build (draft : Draft) : Except ControlFlowFault Method :=
  match draft.pending with
  | label :: _ => .error (.danglingLabel draft.name label)
  | [] =>
    match draft.unlinked.relink with
    | (method, none) => .ok method
    | (_, some fault) => .error fault

end Draft

end ThreeAddress
