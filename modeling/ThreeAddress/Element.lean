import ThreeAddress.Ty

/-!
# Elements

An element is an operand of a statement: a literal, a variable (or a bare class name), or a slot of
an array variable. `Element.reads` lists the variables whose values an element needs.
-/

namespace ThreeAddress

inductive Literal where
  | int (value : Int32)
  | bool (value : Bool)
  deriving DecidableEq, Repr

def Literal.text : Literal → String
  | .int value => toString value.toInt
  | .bool true => "true"
  | .bool false => "false"

inductive Element where
  /-- The declared type need not agree with the value. -/
  | literal (value : Literal) (ty : Ty)
  /-- A variable, `this`, or, with a `Ty.classRef` type, a class. -/
  | operand (name : String) (ty : Ty)
  /-- A slot of the array variable `name`; `ty` is the type of the slot. -/
  | slot (name : String) (index : Element) (ty : Ty)
  deriving DecidableEq, Repr

namespace Element

def receiver : Element := .operand "this" .receiver

def ofClass (name : String) : Element := .operand name (.classRef name)

def ty : Element → Ty
  | .literal _ ty | .operand _ ty | .slot _ _ ty => ty

/-- The variable that the element refers to. Literals and bare class names refer to none. -/
def name? : Element → Option String
  | .literal .. => none
  | .operand name ty => if ty.isClassRef then none else some name
  | .slot name .. => some name

/-- The value of an integer literal that is also typed as an integer. -/
def intLiteral? : Element → Option Int32
  | .literal (.int value) .int32 => some value
  | _ => none

def isZero : Element → Bool
  | .literal (.int value) _ => value == 0
  | .literal (.bool value) _ => !value
  | _ => false

/-- The variables read to evaluate the element, an array before the variables of its index. -/
def reads : Element → List String
  | .literal .. => []
  | .operand name ty => if ty.isClassRef then [] else [name]
  | .slot name index _ => name :: index.reads

def text : Element → String
  | .literal value ty => value.text ++ "." ++ ty.text
  | .operand name (.classRef _) | .operand name .receiver => name
  | .operand name ty => name ++ "." ++ ty.text
  | .slot name index ty => name ++ "[" ++ index.text ++ "]." ++ ty.text

end Element

end ThreeAddress
