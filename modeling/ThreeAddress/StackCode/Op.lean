/-!
# Stack instructions

The instructions that methods are lowered to, as data: how they are written, how many values they take
from the operand stack and put on it, and where they may jump. A body is a list of items, each an
instruction or a label.
-/

namespace ThreeAddress

inductive Comparison where
  | eq | ne | lt | ge | gt | le
  deriving DecidableEq, Repr

def Comparison.text : Comparison → String
  | .eq => "eq"
  | .ne => "ne"
  | .lt => "lt"
  | .ge => "ge"
  | .gt => "gt"
  | .le => "le"

inductive Dispatch where
  | virtual
  | static
  | special
  deriving DecidableEq, Repr

def Dispatch.text : Dispatch → String
  | .virtual => "invokevirtual"
  | .static => "invokestatic"
  | .special => "invokespecial"

/-- A call of a method, with its parameters and result given by their descriptors. -/
structure Invoke where
  dispatch : Dispatch
  owner : String
  method : String
  params : List String
  ret : String
  deriving DecidableEq, Repr

namespace Invoke

/-- The arguments, and the receiver unless the method is static. -/
def pops (invoke : Invoke) : Nat :=
  match invoke.dispatch with
  | .static => invoke.params.length
  | .virtual | .special => invoke.params.length + 1

def pushes (invoke : Invoke) : Nat := if invoke.ret = "V" then 0 else 1

def text (invoke : Invoke) : String :=
  invoke.dispatch.text ++ " " ++ invoke.owner ++ "/" ++ invoke.method ++ "("
    ++ String.join invoke.params ++ ")" ++ invoke.ret

end Invoke

/-- A field by its class, its name and its descriptor. -/
structure FieldRef where
  owner : String
  name : String
  descriptor : String
  deriving DecidableEq, Repr

def FieldRef.text (field : FieldRef) : String :=
  field.owner ++ "/" ++ field.name ++ " " ++ field.descriptor

inductive StackOp where
  /-- A constant from -1 to 5. -/
  | iconst (value : Int32)
  | bipush (value : Int32)
  | sipush (value : Int32)
  | ldc (value : Int32)
  | iload (register : Nat)
  | aload (register : Nat)
  | istore (register : Nat)
  | astore (register : Nat)
  | iinc (register : Nat) (amount : Int32)
  | iaload | aaload | iastore | aastore
  | iadd | isub | imul | idiv | iand | ior | ixor
  /-- Jumps if the top value compares to zero as said. -/
  | ifZero (comparison : Comparison) (label : String)
  | ifCompare (comparison : Comparison) (label : String)
  | goto (label : String)
  | invoke (invoke : Invoke)
  | new (name : String)
  /-- A new array of a primitive type, such as `int`. -/
  | newArray (item : String)
  | newObjectArray (item : String)
  | arrayLength
  | getField (field : FieldRef)
  | putField (field : FieldRef)
  | getStatic (field : FieldRef)
  | putStatic (field : FieldRef)
  | dup | pop
  | ireturn | areturn | ret
  deriving DecidableEq, Repr

namespace StackOp

/-- How many values the instruction takes from the stack. -/
def pops : StackOp → Nat
  | .iconst _ | .bipush _ | .sipush _ | .ldc _ | .iload _ | .aload _ => 0
  | .istore _ | .astore _ => 1
  | .iinc .. => 0
  | .iaload | .aaload => 2
  | .iastore | .aastore => 3
  | .iadd | .isub | .imul | .idiv | .iand | .ior | .ixor => 2
  | .ifZero .. => 1
  | .ifCompare .. => 2
  | .goto _ => 0
  | .invoke call => call.pops
  | .new _ => 0
  | .newArray _ | .newObjectArray _ | .arrayLength => 1
  | .getField _ => 1
  | .putField _ => 2
  | .getStatic _ => 0
  | .putStatic _ => 1
  | .dup | .pop => 1
  | .ireturn | .areturn => 1
  | .ret => 0

/-- How many values the instruction then puts on the stack. -/
def pushes : StackOp → Nat
  | .iconst _ | .bipush _ | .sipush _ | .ldc _ | .iload _ | .aload _ => 1
  | .istore _ | .astore _ => 0
  | .iinc .. => 0
  | .iaload | .aaload => 1
  | .iastore | .aastore => 0
  | .iadd | .isub | .imul | .idiv | .iand | .ior | .ixor => 1
  | .ifZero .. | .ifCompare .. | .goto _ => 0
  | .invoke call => call.pushes
  | .new _ => 1
  | .newArray _ | .newObjectArray _ | .arrayLength => 1
  | .getField _ => 1
  | .putField _ => 0
  | .getStatic _ => 1
  | .putStatic _ => 0
  | .dup => 2
  | .pop => 0
  | .ireturn | .areturn | .ret => 0

/-- The label that the instruction may jump to. -/
def target? : StackOp → Option String
  | .ifZero _ label | .ifCompare _ label | .goto label => some label
  | _ => none

/-- Whether control never goes on to the next instruction. -/
def isTerminator : StackOp → Bool
  | .goto _ | .ireturn | .areturn | .ret => true
  | _ => false

/-- The first four registers have short instructions of their own. -/
def slotText (mnemonic : String) (register : Nat) : String :=
  mnemonic ++ (if register < 4 then "_" else " ") ++ toString register

def numberText (value : Int32) : String := toString value.toInt

def text : StackOp → String
  | .iconst value => if value = -1 then "iconst_m1" else "iconst_" ++ numberText value
  | .bipush value => "bipush " ++ numberText value
  | .sipush value => "sipush " ++ numberText value
  | .ldc value => "ldc " ++ numberText value
  | .iload register => slotText "iload" register
  | .aload register => slotText "aload" register
  | .istore register => slotText "istore" register
  | .astore register => slotText "astore" register
  | .iinc register amount => "iinc " ++ toString register ++ " " ++ numberText amount
  | .iaload => "iaload"
  | .aaload => "aaload"
  | .iastore => "iastore"
  | .aastore => "aastore"
  | .iadd => "iadd"
  | .isub => "isub"
  | .imul => "imul"
  | .idiv => "idiv"
  | .iand => "iand"
  | .ior => "ior"
  | .ixor => "ixor"
  | .ifZero comparison label => "if" ++ comparison.text ++ " " ++ label
  | .ifCompare comparison label => "if_icmp" ++ comparison.text ++ " " ++ label
  | .goto label => "goto " ++ label
  | .invoke call => call.text
  | .new name => "new " ++ name
  | .newArray item => "newarray " ++ item
  | .newObjectArray item => "anewarray " ++ item
  | .arrayLength => "arraylength"
  | .getField field => "getfield " ++ field.text
  | .putField field => "putfield " ++ field.text
  | .getStatic field => "getstatic " ++ field.text
  | .putStatic field => "putstatic " ++ field.text
  | .dup => "dup"
  | .pop => "pop"
  | .ireturn => "ireturn"
  | .areturn => "areturn"
  | .ret => "return"

end StackOp

/-- A line of a lowered body. -/
inductive Item where
  | label (label : String)
  | op (op : StackOp)
  deriving DecidableEq, Repr

def Item.text : Item → String
  | .label l => l ++ ":"
  | .op o => "\t" ++ o.text

end ThreeAddress
