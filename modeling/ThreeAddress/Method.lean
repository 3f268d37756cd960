import ThreeAddress.Statement
import ThreeAddress.Table

/-!
# Methods

A method is a signature, a body of numbered instructions, a table from labels to the instructions
that carry them, and a table of the variables with the registers that hold them.
-/

namespace ThreeAddress

inductive Access where
  | pub
  | priv
  | prot
  /-- Visible inside the package only, which is written as no modifier at all. -/
  | package
  deriving DecidableEq, Repr

def Access.text : Access → String
  | .pub => "public"
  | .priv => "private"
  | .prot => "protected"
  | .package => ""

inductive Successor where
  | instruction (id : Nat)
  /-- The end of the method. -/
  | exit
  deriving DecidableEq, Repr

/-- The instructions of a body are numbered from 1 in the order they are written. -/
structure Instruction where
  id : Nat
  labels : List String
  successors : List Successor
  statement : Statement
  deriving DecidableEq, Repr

inductive Scope where
  | receiver
  | parameter
  | localVar
  deriving DecidableEq, Repr

/-- Where a variable is kept. -/
structure Variable where
  register : Nat
  ty : Ty
  scope : Scope
  deriving DecidableEq, Repr

structure Parameter where
  name : String
  ty : Ty
  deriving DecidableEq, Repr

structure Method where
  name : String
  access : Access
  isStatic : Bool
  isFinal : Bool
  isConstructor : Bool
  params : List Parameter
  ret : Ty
  vars : Table Variable
  instructions : List Instruction
  labels : Table Nat
  deriving DecidableEq, Repr

namespace Method

def instruction? (method : Method) : (id : Nat) → Option Instruction
  | 0 => none
  | index + 1 => method.instructions[index]?

def register? (method : Method) (name : String) : Option Nat :=
  (method.vars.get? name).map Variable.register

def label? (method : Method) (label : String) : Option Nat :=
  method.labels.get? label

end Method

end ThreeAddress
