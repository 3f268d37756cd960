import ThreeAddress.Lowering.Jump
import ThreeAddress.Lowering.Member

/-!
# Lowering right-hand sides

A comparison used as a value needs two labels of its own, so lowering draws numbers from a counter that
runs through the whole class. `Emit` is lowering with that counter, which goes on counting when
lowering fails.
-/

namespace ThreeAddress

def Emit (α : Type) : Type := Nat → Except Fault α × Nat

namespace Emit

variable {α β : Type}

instance : Monad Emit where
  pure a := fun next => (.ok a, next)
  bind p f := fun next =>
    match p next with
    | (.ok a, next') => f a next'
    | (.error fault, next') => (.error fault, next')

instance : MonadLift (Except Fault) Emit := ⟨fun outcome next => (outcome, next)⟩

@[simp] theorem pure_apply (a : α) (next : Nat) : (pure a : Emit α) next = (.ok a, next) := rfl

theorem bind_apply (p : Emit α) (f : α → Emit β) (next : Nat) :
    (p >>= f) next = match p next with
      | (.ok a, next') => f a next'
      | (.error fault, next') => (.error fault, next') :=
  rfl

def fail (fault : Fault) : Emit α := fun next => (.error fault, next)

/-- A number that was not drawn before. -/
def fresh : Emit Nat := fun next => (.ok next, next + 1)

end Emit

/-- The instruction of an operator that takes two numbers to one. -/
def Operator.arithmeticOp? : Operator → Option StackOp
  | .add => some .iadd
  | .sub => some .isub
  | .mul => some .imul
  | .div => some .idiv
  | .and => some .iand
  | .or => some .ior
  | _ => none

def holdsLabel (number : Nat) : String := "cmp" ++ toString number ++ "_true"

def endLabel (number : Nat) : String := "cmp" ++ toString number ++ "_end"

namespace Site

/-- Pushes 1 if the comparison holds and 0 if not. -/
def comparison (site : Site) (binary : Binary) : Emit (List Item) := do
  -- The number is drawn first, so it is used up even if an operand cannot be loaded.
  let number ← Emit.fresh
  let jump ← site.compareJump binary (holdsLabel number)
  pure (jump ++ [.op (.iconst 0), .op (.goto (endLabel number)), .label (holdsLabel number),
    .op (.iconst 1), .label (endLabel number)])

def arithmetic (site : Site) (binary : Binary) : Except Fault (List Item) :=
  match binary.op.arithmeticOp? with
  | none => .error (.unsupported binary.text)
  | some op => do
    let left ← site.load binary.left
    let right ← site.load binary.right
    .ok (left ++ right ++ ops [op])

def binary (site : Site) (binary : Binary) : Emit (List Item) :=
  if binary.op.isComparison then site.comparison binary else liftM (site.arithmetic binary)

def unary (site : Site) (unary : Unary) : Except Fault (List Item) :=
  if unary.op = .not then do
    let operand ← site.load unary.operand
    .ok (operand ++ ops [.iconst 1, .ixor])
  else .error (.unsupported unary.text)

/-- Pushes the value of a right-hand side. -/
def value (site : Site) : Statement → Emit (List Item)
  | .element e => liftM (site.load e)
  | .call c => liftM (site.call c)
  | .getField object field ty => liftM (site.getField object field ty)
  | .unary u => liftM (site.unary u)
  | .binary b => site.binary b
  | .assign dest ty rhs => Emit.fail (.notAValue (Statement.assign dest ty rhs).text)
  | .goto label => Emit.fail (.notAValue (Statement.goto label).text)
  | .branch condition label => Emit.fail (.notAValue (Statement.branch condition label).text)
  | .ret value? ty => Emit.fail (.notAValue (Statement.ret value? ty).text)
  | .putField object field value => Emit.fail (.notAValue (Statement.putField object field value).text)

end Site

end ThreeAddress
