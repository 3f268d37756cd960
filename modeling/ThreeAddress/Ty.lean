/-!
# Types of values

The types that elements, methods and fields are declared with, their written form, and the broad
category that decides which stack instruction handles a value.
-/

namespace ThreeAddress

inductive Ty where
  | int32
  | boolean
  | array (item : Ty)
  /-- An instance of the named class. -/
  | object (name : String)
  /-- The named class itself, as the target of a static call or of `new`. -/
  | classRef (name : String)
  /-- The instance that a method was called on. -/
  | receiver
  | string
  | void
  deriving DecidableEq, Repr

/-- What a value is to the operand stack. -/
inductive Category where
  | integer
  | reference
  | void
  deriving DecidableEq, Repr

namespace Ty

def category : Ty → Category
  | .int32 | .boolean => .integer
  | .array _ | .object _ | .classRef _ | .receiver | .string => .reference
  | .void => .void

def isVoid : Ty → Bool
  | .void => true
  | _ => false

def isClassRef : Ty → Bool
  | .classRef _ => true
  | _ => false

def text : Ty → String
  | .int32 => "i32"
  | .boolean => "bool"
  | .array item => "array." ++ item.text
  | .object name | .classRef name => name
  | .receiver => "this"
  | .string => "String"
  | .void => "V"

/-- The type written as a single word. A word with no meaning of its own names a class. -/
def ofWord (word : String) : Ty :=
  if word = "i32" then .int32
  else if word = "bool" then .boolean
  else if word = "V" then .void
  else if word = "String" then .string
  else .object word

theorem category_eq_void_iff {ty : Ty} : ty.category = .void ↔ ty = .void := by
  cases ty <;> simp [category]

theorem isVoid_iff {ty : Ty} : ty.isVoid = true ↔ ty = .void := by
  cases ty <;> simp [isVoid]

end Ty

end ThreeAddress
