import ThreeAddress.Method

/-!
# Classes

A class unit is one class with its imports, fields and methods: all that is compiled together.
-/

namespace ThreeAddress

structure Field where
  name : String
  ty : Ty
  access : Access
  isStatic : Bool
  isFinal : Bool
  deriving DecidableEq, Repr

structure ClassUnit where
  name : String
  /-- The superclass by its short name, if it is not the root of all classes. -/
  super? : Option String
  access : Access
  isFinal : Bool
  /-- Dotted paths, such as `java.util.List`. -/
  imports : List String
  fields : List Field
  methods : List Method
  deriving DecidableEq, Repr

namespace ClassUnit

def field? (unit : ClassUnit) (name : String) : Option Field :=
  unit.fields.find? fun field => field.name == name

def method? (unit : ClassUnit) (name : String) : Option Method :=
  unit.methods.find? fun method => method.name == name

end ClassUnit

end ThreeAddress
