import ThreeAddress.Lowering.Fault
import ThreeAddress.StackCode.Descriptor
import ThreeAddress.StackCode.Op

/-!
# Loading elements and storing into them

A method is lowered at a `Site`: the method and its class. `Site.load` gives the items that push the
value of an element, and `Site.place` what has to be done before and after a value that goes into one.
A variable without a register stands for a field of the class with the same name.
-/

namespace ThreeAddress

structure Site where
  unit : ClassUnit
  method : Method

def ops (ops : List StackOp) : List Item := ops.map Item.op

/-- The shortest instruction that pushes a number. -/
def intConstant (value : Int32) : StackOp :=
  if -1 ≤ value ∧ value ≤ 5 then .iconst value
  else if -128 ≤ value ∧ value ≤ 127 then .bipush value
  else if -32768 ≤ value ∧ value ≤ 32767 then .sipush value
  else .ldc value

/-- The number that a literal stands for, if its type goes with it. -/
def literalValue : Literal → Ty → Except Fault Int32
  | .int value, .int32 => .ok value
  | .int value, .boolean =>
    if value = 0 ∨ value = 1 then .ok value else .error (.literalType (Literal.int value).text "bool")
  | .bool value, .boolean => .ok (if value then 1 else 0)
  | value, ty => .error (.literalType value.text ty.text)

namespace Site

/-- A field that goes by its bare name. Those of an instance can be reached from instance methods
only. -/
def implicitField (site : Site) (name : String) : Except Fault Field :=
  match site.unit.field? name with
  | some field =>
    if field.isStatic || !site.method.isStatic then .ok field else .error (.unresolved name)
  | none => .error (.unresolved name)

def fieldRef (site : Site) (field : Field) : FieldRef where
  owner := site.unit.name
  name := field.name
  descriptor := site.unit.descriptor field.ty

def loadVariable (site : Site) (name : String) (ty : Ty) : Except Fault (List Item) :=
  match site.method.register? name with
  | some register =>
    match ty.category with
    | .integer => .ok (ops [.iload register])
    | .reference => .ok (ops [.aload register])
    | .void => .error (.notAValue name)
  | none => do
    let field ← site.implicitField name
    if field.isStatic then .ok (ops [.getStatic (site.fieldRef field)])
    else .ok (ops [.aload 0, .getField (site.fieldRef field)])

def load (site : Site) : Element → Except Fault (List Item)
  | .literal value ty => do
    let number ← literalValue value ty
    .ok (ops [intConstant number])
  | .operand name (.classRef _) => .error (.notAValue name)
  | .operand name ty => site.loadVariable name ty
  | .slot name index ty => do
    let array ← site.loadVariable name (.array ty)
    let position ← site.load index
    match ty.category with
    | .integer => .ok (array ++ position ++ ops [.iaload])
    | .reference => .ok (array ++ position ++ ops [.aaload])
    | .void => .error (.unsupported (Element.slot name index ty).text)

def loadAll (site : Site) : List Element → Except Fault (List Item)
  | [] => .ok []
  | element :: rest => do
    let first ← site.load element
    let others ← site.loadAll rest
    .ok (first ++ others)

def cannotAssign (dest : Element) : Fault := .unsupported ("assigning to `" ++ dest.text ++ "`")

/-- The items that go below a value to be stored into the element, and the instruction that then
stores it. -/
def place (site : Site) : Element → Except Fault (List Item × StackOp)
  | .literal value ty => .error (cannotAssign (.literal value ty))
  | .operand name (.classRef owner) => .error (cannotAssign (.operand name (.classRef owner)))
  | .operand name ty =>
    match site.method.register? name with
    | some register =>
      match ty.category with
      | .integer => .ok ([], .istore register)
      | .reference => .ok ([], .astore register)
      | .void => .error (cannotAssign (.operand name ty))
    | none => do
      let field ← site.implicitField name
      if field.isStatic then .ok ([], .putStatic (site.fieldRef field))
      else .ok (ops [.aload 0], .putField (site.fieldRef field))
  | .slot name index ty => do
    let array ← site.loadVariable name (.array ty)
    let position ← site.load index
    match ty.category with
    | .integer => .ok (array ++ position, .iastore)
    | .reference => .ok (array ++ position, .aastore)
    | .void => .error (cannotAssign (.slot name index ty))

end Site

end ThreeAddress
