/-!
# Why a method cannot be lowered
-/

namespace ThreeAddress

inductive Fault where
  | unresolved (name : String)
  | unknownLabel (label : String)
  | stackUnderflow (instruction : String)
  | literalType (literal ty : String)
  | notAValue (what : String)
  | missingReturn
  | unsupported (what : String)
  /-- The label table names an instruction that the method does not have. -/
  | missingInstruction (id : Nat) (method : String)
  deriving DecidableEq, Repr

def Fault.message : Fault → String
  | .unresolved name => s!"the variable `{name}` has no register and is not a field of the class"
  | .unknownLabel label => s!"no instruction has the label `{label}`"
  | .stackUnderflow instruction => s!"`{instruction}` pops more values than there are on the stack"
  | .literalType literal ty => s!"the literal `{literal}` cannot have the type `{ty}`"
  | .notAValue what => s!"`{what}` does not produce a value"
  | .missingReturn => "the method can reach its end without returning a value"
  | .unsupported what => s!"`{what}` is not supported"
  | .missingInstruction id method => s!"instruction {id} does not exist in `{method}`"

end ThreeAddress
