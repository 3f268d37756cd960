import ThreeAddress.Element
import ThreeAddress.Operator

/-!
# Statements

A method body is a list of statements over elements. The right-hand side of an assignment is a
statement too, so that calls, field reads and operations have one shape wherever they stand.
`Statement.defs` and `Statement.uses` say which variables a statement writes and reads.
-/

namespace ThreeAddress

inductive Invocation where
  | virtual
  | static
  | special
  | new
  | arrayLength
  deriving DecidableEq, Repr

def Invocation.text : Invocation → String
  | .virtual => "invokevirtual"
  | .static => "invokestatic"
  | .special => "invokespecial"
  | .new => "new"
  | .arrayLength => "arraylength"

def Invocation.ofText? (text : String) : Option Invocation :=
  [virtual, static, special, new, arrayLength].find? fun invocation => invocation.text == text

/-- `target` is the receiver, or the class of a static call and of `new`. -/
structure Call where
  invocation : Invocation
  target : Element
  method? : Option String
  args : List Element
  ret : Ty
  deriving DecidableEq, Repr

structure Unary where
  op : Operator
  operand : Element
  deriving DecidableEq, Repr

structure Binary where
  op : Operator
  left : Element
  right : Element
  deriving DecidableEq, Repr

inductive Condition where
  | single (element : Element)
  | unary (unary : Unary)
  | binary (binary : Binary)
  deriving DecidableEq, Repr

inductive Statement where
  | assign (dest : Element) (ty : Ty) (rhs : Statement)
  | call (call : Call)
  | goto (label : String)
  | branch (condition : Condition) (label : String)
  | ret (value? : Option Element) (ty : Ty)
  | putField (object field value : Element)
  | getField (object field : Element) (ty : Ty)
  | unary (unary : Unary)
  | binary (binary : Binary)
  /-- A lone element, such as the right-hand side of a copy. -/
  | element (element : Element)
  deriving DecidableEq, Repr

def Call.text (call : Call) : String :=
  let method := match call.method? with
    | some method => ", \"" ++ method ++ "\""
    | none => ""
  let args := String.join (call.args.map fun arg => ", " ++ arg.text)
  call.invocation.text ++ "(" ++ call.target.text ++ method ++ args ++ ")." ++ call.ret.text

def Unary.text (unary : Unary) : String :=
  unary.op.symbol ++ "." ++ unary.op.resultTy.text ++ " " ++ unary.operand.text

def Binary.text (binary : Binary) : String :=
  binary.left.text ++ " " ++ binary.op.symbol ++ "." ++ binary.op.resultTy.text ++ " "
    ++ binary.right.text

namespace Condition

def operands : Condition → List Element
  | .single e => [e]
  | .unary u => [u.operand]
  | .binary b => [b.left, b.right]

def text : Condition → String
  | .single e => e.text
  | .unary u => u.text
  | .binary b => b.text

end Condition

namespace Statement

/-- The type of the value that the statement yields as a right-hand side. -/
def ty : Statement → Ty
  | .assign _ ty _ => ty
  | .call c => c.ret
  | .getField _ _ ty => ty
  | .unary u => u.op.resultTy
  | .binary b => b.op.resultTy
  | .element e => e.ty
  | .goto _ | .branch .. | .ret .. | .putField .. => .void

/-- Storing into an array slot reads the array and its index. -/
def destOperands : Element → List Element
  | .slot name index ty => [.slot name index ty]
  | _ => []

/-- The elements that the statement reads, in the order of evaluation. Field names are not among
them, since they name no variable. -/
def operands : Statement → List Element
  | .assign dest _ rhs => destOperands dest ++ rhs.operands
  | .call c => c.target :: c.args
  | .goto _ => []
  | .branch condition _ => condition.operands
  | .ret value? _ => value?.toList
  | .putField object _ value => [object, value]
  | .getField object _ _ => [object]
  | .unary u => [u.operand]
  | .binary b => [b.left, b.right]
  | .element e => [e]

/-- The variable that the statement gives a new value. Only a plain variable is defined; a slot of
an array is not. -/
def def? : Statement → Option String
  | .assign (.operand name ty) _ _ => (Element.operand name ty).name?
  | _ => none

def defs (statement : Statement) : List String :=
  statement.def?.toList

/-- The variables that the statement reads, in order and with repetitions. -/
def uses (statement : Statement) : List String :=
  statement.operands.flatMap Element.reads

def text : Statement → String
  | .assign dest ty rhs => dest.text ++ " :=." ++ ty.text ++ " " ++ rhs.text
  | .call c => c.text
  | .goto label => "goto " ++ label
  | .branch condition label => "if (" ++ condition.text ++ ") goto " ++ label
  | .ret (some value) ty => "ret." ++ ty.text ++ " " ++ value.text
  | .ret none ty => "ret." ++ ty.text
  | .putField object field value =>
    "putfield(" ++ object.text ++ ", " ++ field.text ++ ", " ++ value.text ++ ").V"
  | .getField object field ty =>
    "getfield(" ++ object.text ++ ", " ++ field.text ++ ")." ++ ty.text
  | .unary u => u.text
  | .binary b => b.text
  | .element e => e.text

/-- The label that the statement may jump to. -/
def jump? : Statement → Option String
  | .goto label | .branch _ label => some label
  | _ => none

end Statement

end ThreeAddress
