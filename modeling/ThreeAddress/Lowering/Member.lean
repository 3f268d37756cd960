import ThreeAddress.Draft
import ThreeAddress.Lowering.Load

/-!
# Lowering field accesses and calls

Fields and methods are named by the class that the type of the accessed element leads to. An object
that is created and constructed in two neighbouring instructions is made in one go.
-/

namespace ThreeAddress

namespace Site

/-- The name of a field as it is given in an access. -/
def fieldName : Element → Except Fault String
  | .operand name _ => .ok name
  | other => .error (.unsupported ("`" ++ other.text ++ "` as a field"))

def ownerOf (site : Site) (object : Element) : Except Fault String :=
  match site.unit.classOf? object.ty with
  | some owner => .ok owner
  | none => .error (.unsupported ("fields of `" ++ object.text ++ "`"))

/-- The field of a class is static, that of anything else belongs to an instance. -/
def putField (site : Site) (object field value : Element) : Except Fault (List Item) := do
  let name ← fieldName field
  let descriptor := site.unit.descriptor field.ty
  match object.ty with
  | .classRef owner =>
    let stored ← site.load value
    .ok (stored ++ ops [.putStatic ⟨site.unit.resolve owner, name, descriptor⟩])
  | _ =>
    let owner ← site.ownerOf object
    let target ← site.load object
    let stored ← site.load value
    .ok (target ++ stored ++ ops [.putField ⟨owner, name, descriptor⟩])

def getField (site : Site) (object field : Element) (ty : Ty) : Except Fault (List Item) := do
  let name ← fieldName field
  let descriptor := site.unit.descriptor ty
  match object.ty with
  | .classRef owner => .ok (ops [.getStatic ⟨site.unit.resolve owner, name, descriptor⟩])
  | _ =>
    let owner ← site.ownerOf object
    let target ← site.load object
    .ok (target ++ ops [.getField ⟨owner, name, descriptor⟩])

/-- Pushes the arguments and calls the method. -/
def invoke (site : Site) (dispatch : Dispatch) (owner method : String) (call : Call) :
    Except Fault (List Item) := do
  let args ← site.loadAll call.args
  let params := call.args.map fun arg => site.unit.descriptor arg.ty
  .ok (args ++ ops [.invoke { dispatch, owner, method, params, ret := site.unit.descriptor call.ret }])

def methodName (call : Call) : Except Fault String :=
  match call.method? with
  | some method => .ok method
  | none => .error (.unsupported ("`" ++ call.text ++ "` without a method"))

def targetClass (site : Site) (call : Call) : Except Fault String :=
  match site.unit.classOf? call.target.ty with
  | some owner => .ok owner
  | none => .error (.unsupported ("calling methods on `" ++ call.target.text ++ "`"))

/-- A constructor that constructs its own receiver calls the superclass. -/
def callsSuper (site : Site) (call : Call) (method : String) : Bool :=
  site.method.isConstructor && method == Draft.constructorName && call.target.ty == .receiver

def specialClass (site : Site) (call : Call) (method : String) : Except Fault String :=
  if site.callsSuper call method then .ok site.unit.superName else site.targetClass call

/-- The class that an object is created of. -/
def newClass (site : Site) (call : Call) : Except Fault String :=
  let refused := Fault.unsupported ("creating `" ++ call.target.text ++ "`")
  match call.target.ty with
  | .classRef _ | .object _ =>
    if call.ret.category = .reference then site.targetClass call else .error refused
  | _ => .error refused

/-- The instruction that makes an array of a length on the stack. -/
def newArrayOp (site : Site) : Ty → Except Fault StackOp
  | .int32 => .ok (.newArray "int")
  | .boolean => .ok (.newArray "boolean")
  | item =>
    match site.unit.classOf? item with
    | some owner => .ok (.newObjectArray owner)
    | none => .error (.unsupported ("arrays of `" ++ item.text ++ "`"))

def newArray (site : Site) (call : Call) (item : Ty) : Except Fault (List Item) :=
  match call.args with
  | [length] => do
    let size ← site.load length
    let op ← site.newArrayOp item
    .ok (size ++ ops [op])
  | _ => .error (.unsupported ("`" ++ call.text ++ "` without exactly one length"))

def newObject (site : Site) (call : Call) : Except Fault (List Item) :=
  match call.ret with
  | .array item => site.newArray call item
  | _ => do
    let owner ← site.newClass call
    .ok (ops [.new owner])

/-- Pushes the result of a call, if it has one. -/
def call (site : Site) (call : Call) : Except Fault (List Item) :=
  match call.invocation with
  | .virtual => do
    let method ← methodName call
    let owner ← site.targetClass call
    let target ← site.load call.target
    let invoked ← site.invoke .virtual owner method call
    .ok (target ++ invoked)
  | .static => do
    let method ← methodName call
    let owner ← site.targetClass call
    site.invoke .static owner method call
  | .special => do
    let method ← methodName call
    let owner ← site.specialClass call method
    let target ← site.load call.target
    let invoked ← site.invoke .special owner method call
    .ok (target ++ invoked)
  | .new => site.newObject call
  | .arrayLength => do
    let target ← site.load call.target
    .ok (target ++ ops [.arrayLength])

end Site

/-- The creation of an object and the call of its constructor. -/
structure Construction where
  dest : Element
  create : Call
  init : Call
  deriving DecidableEq, Repr

/-- The creation that `inst` and the instruction `next` after it make up together, if they do. No jump
may lead in between. -/
def Construction.of? (inst next : Instruction) : Option Construction :=
  match inst.statement, next.statement with
  | .assign (.operand name ty) _ (.call create), .call init =>
    let createsObject := match create.ret with
      | .array _ => false
      | _ => create.invocation == .new
    if createsObject && init.invocation == .special && init.method? == some Draft.constructorName
        && init.target.name? == some name && next.labels.isEmpty then
      some { dest := .operand name ty, create, init }
    else none
  | _, _ => none

def Site.construction (site : Site) (construction : Construction) : Except Fault (List Item) := do
  let (before, store) ← site.place construction.dest
  let owner ← site.newClass construction.create
  let invoked ← site.invoke .special owner Draft.constructorName construction.init
  .ok (before ++ ops [.new owner, .dup] ++ invoked ++ ops [store])

end ThreeAddress
