import ThreeAddress.Ty

/-!
# Operators

The operators of unary and binary statements, with the type that each one yields and the comparison
that holds when the two operands change places.
-/

namespace ThreeAddress

inductive Operator where
  | add | sub | mul | div
  | and | or | not
  | lt | gt | le | ge | eq | ne
  deriving DecidableEq, Repr

namespace Operator

def isComparison : Operator → Bool
  | .lt | .gt | .le | .ge | .eq | .ne => true
  | _ => false

def isArithmetic : Operator → Bool
  | .add | .sub | .mul | .div => true
  | _ => false

/-- The operator for which `b op.swapped a` says the same as `a op b`, if `op` is a comparison. -/
def swapped : Operator → Operator
  | .lt => .gt
  | .gt => .lt
  | .le => .ge
  | .ge => .le
  | op => op

def resultTy (op : Operator) : Ty :=
  if op.isArithmetic then .int32 else .boolean

def symbol : Operator → String
  | .add => "+"
  | .sub => "-"
  | .mul => "*"
  | .div => "/"
  | .and => "&&"
  | .or => "||"
  | .not => "!"
  | .lt => "<"
  | .gt => ">"
  | .le => "<="
  | .ge => ">="
  | .eq => "=="
  | .ne => "!="

def all : List Operator :=
  [.add, .sub, .mul, .div, .and, .or, .not, .lt, .gt, .le, .ge, .eq, .ne]

def ofSymbol? (symbol : String) : Option Operator :=
  all.find? fun op => op.symbol == symbol

@[simp] theorem swapped_swapped (op : Operator) : op.swapped.swapped = op := by
  cases op <;> rfl

@[simp] theorem isComparison_swapped (op : Operator) :
    op.swapped.isComparison = op.isComparison := by
  cases op <;> rfl

end Operator

end ThreeAddress
