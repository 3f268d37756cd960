import ThreeAddress.ClassUnit

/-!
# Names and descriptors

How the names and types of a class are spelled in stack code. A class name is looked up in the imports
by its last part, and a type becomes a descriptor.
-/

namespace ThreeAddress

/-- The part of a dotted path after the last dot. -/
def lastPart (path : String) : String :=
  String.ofList (path.toList.reverse.takeWhile (· != '.')).reverse

/-- A dotted path with slashes instead. -/
def slashed (path : String) : String :=
  String.ofList (path.toList.map fun c => if c = '.' then '/' else c)

def objectClass : String := "java/lang/Object"

def stringClass : String := "java/lang/String"

/-- What is visible in the package only becomes public. -/
def Access.flag : Access → String
  | .package => Access.pub.text
  | access => access.text

namespace ClassUnit

/-- The full name of a class. A name that was not imported stands for itself. -/
def resolve (unit : ClassUnit) (name : String) : String :=
  if name = "String" then stringClass
  else
    match unit.imports.find? fun path => lastPart path == name with
    | some path => slashed path
    | none => name

def superName (unit : ClassUnit) : String :=
  match unit.super? with
  | some name => unit.resolve name
  | none => objectClass

/-- The class whose members a value of the type has, if it has any. -/
def classOf? (unit : ClassUnit) : Ty → Option String
  | .receiver => some unit.name
  | .object name | .classRef name => some (unit.resolve name)
  | .string => some stringClass
  | .int32 | .boolean | .array _ | .void => none

def descriptor (unit : ClassUnit) : Ty → String
  | .int32 => "I"
  | .boolean => "Z"
  | .array item => "[" ++ unit.descriptor item
  | .object name | .classRef name => "L" ++ unit.resolve name ++ ";"
  | .receiver => "L" ++ unit.name ++ ";"
  | .string => "L" ++ stringClass ++ ";"
  | .void => "V"

def methodDescriptor (unit : ClassUnit) (method : Method) : String :=
  "(" ++ String.join (method.params.map fun param => unit.descriptor param.ty) ++ ")"
    ++ unit.descriptor method.ret

end ClassUnit

end ThreeAddress
