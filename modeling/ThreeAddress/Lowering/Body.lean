import ThreeAddress.Lowering.Value
import ThreeAddress.StackCode.Frame
import ThreeAddress.StackCode.Listing

/-!
# Lowering methods

`Site.body` lowers the instructions of a method one after the other, and `Site.listing` adds what the
frame of the method needs.
-/

namespace ThreeAddress

/-- The amount by which the assignment of `binary` to a variable changes it, if `same` says which
elements are that variable: `x + c`, `c + x` and `x - c` do. -/
def Binary.increment? (same : Element → Bool) (binary : Binary) : Option Int32 :=
  match binary.op with
  | .add =>
    if same binary.left then binary.right.intLiteral?
    else if same binary.right then binary.left.intLiteral?
    else none
  | .sub => if same binary.left then binary.right.intLiteral?.map fun amount => -amount else none
  | _ => none

namespace Site

/-- Whether the element is an integer variable in the given register. Variables that share a register
are the same variable here. -/
def isIntIn (site : Site) (register : Nat) : Element → Bool
  | .operand name .int32 => site.method.register? name == some register
  | _ => false

/-- The register and the amount of an assignment that is a small increment. -/
def increment? (site : Site) (dest : Element) (rhs : Statement) : Option (Nat × Int32) :=
  match dest, rhs with
  | .operand name .int32, .binary binary => do
    let register ← site.method.register? name
    let amount ← binary.increment? (site.isIntIn register)
    if -128 ≤ amount ∧ amount ≤ 127 then some (register, amount) else none
  | _, _ => none

def assign (site : Site) (dest : Element) (rhs : Statement) : Emit (List Item) :=
  match site.increment? dest rhs with
  | some (register, amount) => pure (ops [.iinc register amount])
  | none => do
    let (before, store) ← site.place dest
    let stored ← site.value rhs
    pure (before ++ stored ++ ops [store])

def branchTo (site : Site) (condition : Condition) (target : String) : Emit (List Item) :=
  match condition with
  | .single e => do
    let loaded ← site.load e
    pure (loaded ++ ops [.ifZero .ne target])
  | .unary u =>
    if u.op = .not then do
      let loaded ← site.load u.operand
      pure (loaded ++ ops [.ifZero .eq target])
    else Emit.fail (.unsupported ("the condition `" ++ u.text ++ "`"))
  | .binary b =>
    if b.op.isComparison then liftM (site.compareJump b target)
    else do
      let loaded ← site.binary b
      pure (loaded ++ ops [.ifZero .ne target])

/-- A value that nothing uses is dropped again. -/
def statement (site : Site) : Statement → Emit (List Item)
  | .assign dest _ rhs => site.assign dest rhs
  | .call c => do
    let called ← site.call c
    pure (if c.ret.isVoid then called else called ++ ops [.pop])
  | .goto label => do
    let target ← site.follow label
    pure (ops [.goto target])
  | .branch condition label => do
    let target ← site.follow label
    site.branchTo condition target
  | .ret value? ty => liftM (site.ret value? ty)
  | .putField object field value => liftM (site.putField object field value)
  | .getField object field ty => do
    let pushed ← site.value (.getField object field ty)
    pure (pushed ++ ops [.pop])
  | .unary u => do
    let pushed ← site.value (.unary u)
    pure (pushed ++ ops [.pop])
  | .binary b => do
    let pushed ← site.value (.binary b)
    pure (pushed ++ ops [.pop])
  | .element e => do
    let pushed ← site.value (.element e)
    pure (pushed ++ ops [.pop])

def labelItems (inst : Instruction) : List Item := inst.labels.map Item.label

def instructions (site : Site) : List Instruction → Emit (List Item)
  | [] => pure []
  | [inst] => do
    let items ← site.statement inst.statement
    pure (labelItems inst ++ items)
  | inst :: next :: rest =>
    match Construction.of? inst next with
    -- Both instructions are done with, and the second has no labels.
    | some construction => do
      let items ← site.construction construction
      let others ← site.instructions rest
      pure (labelItems inst ++ items ++ others)
    | none => do
      let items ← site.statement inst.statement
      let others ← site.instructions (next :: rest)
      pure (labelItems inst ++ items ++ others)

/-- Whether control can run past the last item. -/
def fallsThrough (body : List Item) : Bool :=
  match body.getLast? with
  | some (.op op) => !op.isTerminator
  | _ => true

/-- The body with a return at the end if control gets there, which it must not do in a method that
returns a value. -/
def close (site : Site) (body : List Item) : Except Fault (List Item) :=
  if !fallsThrough body then .ok body
  else if site.method.ret.isVoid then .ok (body ++ ops [.ret])
  else .error .missingReturn

def body (site : Site) : Emit (List Item) := do
  let items ← site.instructions site.method.instructions
  site.close items

end Site

/-- The number of registers that a frame has: one more than the highest in use. In an instance method
register 0 is in use. -/
def Method.maxLocals (method : Method) : Nat :=
  method.vars.values.foldl (fun most var => max most (var.register + 1)) (if method.isStatic then 0 else 1)

def Site.listing (site : Site) : Emit MethodListing := do
  let body ← site.body
  let maxStack ← maxStack body
  pure {
    access := site.method.access.flag
    isStatic := site.method.isStatic
    isFinal := site.method.isFinal
    name := site.method.name
    descriptor := site.unit.methodDescriptor site.method
    maxStack
    maxLocals := site.method.maxLocals
    body }

end ThreeAddress
