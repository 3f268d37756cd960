import Mathlib.Logic.Function.Basic
import ThreeAddress.Proofs.Drift

/-!
# A machine with objects

The machine runs the instructions that it takes to create an object and to call its constructor. Values
are numbers and references, `new` gives the next reference, and a call does nothing but leave an entry in
the trace; what it returns is up to `answer`, which sees the trace. Everything that elements are loaded
from is in the `Memory`. A variable lies in a `Place`, and in these terms `Site.load_run` says what the
code does that loads an element, and `Site.place_ok` with `Place.step_store` what the code does that
stores into a variable.
-/

namespace ThreeAddress

namespace ObjectMachine

inductive Value where
  | int (number : Int32)
  | ref (id : Nat)
  deriving DecidableEq, Repr

/-- A call of a method, by its class and name, with the values it gets. -/
structure Called where
  owner : String
  method : String
  receiver : Value
  args : List Value
  deriving DecidableEq, Repr

structure Memory where
  registers : Nat → Value
  statics : FieldRef → Value
  /-- The fields of an object. -/
  fields : Value → FieldRef → Value
  /-- The slots of an array, by their index. -/
  slots : Value → Value → Value

structure State where
  stack : List Value
  memory : Memory
  /-- The next reference that `new` gives. -/
  fresh : Nat
  trace : List Called

def State.push (state : State) (value : Value) : State := { state with stack := value :: state.stack }

/-- Goes on with the top value and the state without it. -/
def State.pop (state : State) (next : Value → State → Option State) : Option State :=
  match state.stack with
  | value :: stack => next value { state with stack }
  | [] => none

def Memory.setRegister (memory : Memory) (register : Nat) (value : Value) : Memory :=
  { memory with registers := Function.update memory.registers register value }

def Memory.setStatic (memory : Memory) (field : FieldRef) (value : Value) : Memory :=
  { memory with statics := Function.update memory.statics field value }

def Memory.setField (memory : Memory) (object : Value) (field : FieldRef) (value : Value) : Memory :=
  { memory with
    fields := Function.update memory.fields object
      (Function.update (memory.fields object) field value) }

/-- Calls a method on an object. The last argument is on top of the stack. -/
def State.call (answer : List Called → Value) (call : Invoke) (state : State) : Option State :=
  match call.dispatch, state.stack.drop call.params.length with
  | .virtual, receiver :: rest | .special, receiver :: rest =>
    let args := (state.stack.take call.params.length).reverse
    let trace := state.trace ++ [{ owner := call.owner, method := call.method, receiver, args }]
    some { state with
      stack := if call.ret = "V" then rest else answer trace :: rest
      trace }
  | _, _ => none

def step (answer : List Called → Value) (op : StackOp) (state : State) : Option State :=
  match op with
  | .iconst value | .bipush value | .sipush value | .ldc value => some (state.push (.int value))
  | .iload register | .aload register => some (state.push (state.memory.registers register))
  | .istore register | .astore register => state.pop fun value state =>
    some { state with memory := state.memory.setRegister register value }
  | .iaload | .aaload => state.pop fun index state => state.pop fun array state =>
    some (state.push (state.memory.slots array index))
  | .getStatic field => some (state.push (state.memory.statics field))
  | .putStatic field => state.pop fun value state =>
    some { state with memory := state.memory.setStatic field value }
  | .getField field => state.pop fun object state =>
    some (state.push (state.memory.fields object field))
  | .putField field => state.pop fun value state => state.pop fun object state =>
    some { state with memory := state.memory.setField object field value }
  | .new _ => some { state.push (.ref state.fresh) with fresh := state.fresh + 1 }
  | .dup => state.pop fun value state => some ((state.push value).push value)
  | .pop => state.pop fun _ state => some state
  | .invoke call => state.call answer call
  | _ => none

def run (answer : List Called → Value) : List Item → State → Option State
  | [], state => some state
  | .label _ :: rest, state => run answer rest state
  | .op op :: rest, state => (step answer op state).bind (run answer rest)

variable {answer : List Called → Value}

theorem run_append (first second : List Item) (state : State) :
    run answer (first ++ second) state = (run answer first state).bind (run answer second) := by
  induction first generalizing state with
  | nil => rfl
  | cons item rest ih =>
    cases item with
    | label label => exact ih state
    | op op =>
      simp only [List.cons_append, run, Option.bind_assoc]
      exact Option.bind_congr fun next _ => ih next

theorem run_op (op : StackOp) (state : State) : run answer (ops [op]) state = step answer op state :=
  Option.bind_fun_some _

theorem pop_cons {state : State} {value : Value} {stack : List Value}
    (h : state.stack = value :: stack) (next : Value → State → Option State) :
    state.pop next = next value { state with stack } := by
  simp only [State.pop, h]

theorem pop_ok {state state' : State} {next : Value → State → Option State}
    (h : state.pop next = some state') :
    ∃ value stack, state.stack = value :: stack ∧ next value { state with stack } = some state' := by
  cases hstack : state.stack with
  | nil =>
    simp only [State.pop, hstack] at h
    cases h
  | cons value stack => exact ⟨value, stack, rfl, (pop_cons hstack next).symm.trans h⟩

theorem length_call {call : Invoke} {state state' : State} (h : state.call answer call = some state') :
    state'.stack.length + call.pops = state.stack.length + call.pushes := by
  -- The receiver is on the stack, so all the arguments above it are there too.
  have drop : ∀ receiver rest, state.stack.drop call.params.length = receiver :: rest →
      rest.length + (call.params.length + 1) = state.stack.length := by
    intro receiver rest hdrop
    have hlength := congrArg List.length hdrop
    rw [List.length_drop, List.length_cons] at hlength
    omega
  unfold State.call at h
  split at h
  · next receiver rest hdispatch hdrop =>
    cases h
    have := drop receiver rest hdrop
    simp only [Invoke.pops, Invoke.pushes, hdispatch]
    split
    · omega
    · rw [List.length_cons]
      omega
  · next receiver rest hdispatch hdrop =>
    cases h
    have := drop receiver rest hdrop
    simp only [Invoke.pops, Invoke.pushes, hdispatch]
    split
    · omega
    · rw [List.length_cons]
      omega
  · cases h

/-- The stack grows and shrinks as it is said of the instruction. -/
theorem length_step {op : StackOp} {state state' : State} (h : step answer op state = some state') :
    (state'.stack.length : Int) = state.stack.length + op.net := by
  have hpops : state'.stack.length + op.pops = state.stack.length + op.pushes := by
    cases op with
    | iconst | bipush | sipush | ldc | iload | aload | getStatic | new =>
      cases h
      rfl
    | istore | astore | putStatic | getField | dup | pop =>
      unfold step at h
      obtain ⟨value, stack, hstack, h⟩ := pop_ok h
      cases h
      rw [hstack]
      rfl
    | iaload | aaload | putField =>
      unfold step at h
      obtain ⟨top, stack, hstack, h⟩ := pop_ok h
      obtain ⟨below, rest, hrest, h⟩ := pop_ok h
      cases h
      rw [hstack, show stack = below :: rest from hrest]
      rfl
    | invoke call => exact length_call h
    | _ => cases h
  rw [StackOp.net]
  omega

theorem length_run_ops {row : List StackOp} {state state' : State}
    (h : run answer (ops row) state = some state') :
    (state'.stack.length : Int) = state.stack.length + netOf row := by
  induction row generalizing state with
  | nil =>
    cases h
    exact (Int.add_zero _).symm
  | cons op rest ih =>
    obtain ⟨next, hstep, hrest⟩ := Option.bind_eq_some_iff.mp h
    rw [ih hrest, length_step hstep, netOf, Int.add_assoc]

-- ---------------------------------------------------------------------------
-- Places
-- ---------------------------------------------------------------------------

/-- Where a variable lies. -/
inductive Place where
  | register (number : Nat)
  | static (field : FieldRef)
  /-- A field of the object in register 0. -/
  | member (field : FieldRef)
  deriving DecidableEq, Repr

namespace Place

/-- What is looked at to find the value in the place. -/
def reads : Place → List Place
  | .member field => [.register 0, .member field]
  | place => [place]

def value (memory : Memory) : Place → Value
  | .register number => memory.registers number
  | .static field => memory.statics field
  | .member field => memory.fields (memory.registers 0) field

def write (memory : Memory) (value : Value) : Place → Memory
  | .register number => memory.setRegister number value
  | .static field => memory.setStatic field value
  | .member field => memory.setField (memory.registers 0) field value

/-- What goes onto the stack below a value that is to be stored. -/
def address (memory : Memory) : Place → List Value
  | .member _ => [memory.registers 0]
  | _ => []

def addressItems : Place → List Item
  | .member _ => ops [.aload 0]
  | _ => []

/-- The instruction stores into the place. -/
def StoredBy (store : StackOp) : Place → Prop
  | .register number => store = .istore number ∨ store = .astore number
  | .static field => store = .putStatic field
  | .member field => store = .putField field

theorem run_addressItems (place : Place) (state : State) : run answer place.addressItems state
    = some { state with stack := place.address state.memory ++ state.stack } := by
  cases place <;> rfl

theorem step_store {place : Place} {store : StackOp} (h : place.StoredBy store) {state : State}
    {value : Value} {rest : List Value}
    (hstack : state.stack = value :: (place.address state.memory ++ rest)) :
    step answer store state
      = some { state with stack := rest, memory := place.write state.memory value } := by
  unfold step
  cases place with
  | register number => rcases h with rfl | rfl <;> exact pop_cons hstack _
  | static field =>
    cases h
    exact pop_cons hstack _
  | member field =>
    cases h
    -- The object lies below the value, so a second one is popped.
    exact (pop_cons hstack _).trans rfl

theorem value_write_self (memory : Memory) (value : Value) (place : Place) :
    place.value (place.write memory value) = value := by
  cases place <;> simp [Place.value, write, Memory.setRegister, Memory.setStatic, Memory.setField]

theorem value_write_of_not_mem {place other : Place} (h : place ∉ other.reads) (memory : Memory)
    (value : Value) : other.value (place.write memory value) = other.value memory := by
  cases other with
  | register number =>
    cases place with
    | register written =>
      have hne : number ≠ written := fun heq => h (by simp [reads, heq])
      exact Function.update_of_ne hne _ _
    | _ => rfl
  | static field =>
    cases place with
    | static written =>
      have hne : field ≠ written := fun heq => h (by simp [reads, heq])
      exact Function.update_of_ne hne _ _
    | _ => rfl
  | member field =>
    cases place with
    | register written =>
      have hne : 0 ≠ written := fun heq => h (by simp [reads, heq])
      simp only [Place.value, write, Memory.setRegister, Function.update_of_ne hne]
    | static written => rfl
    | member written =>
      have hne : field ≠ written := fun heq => h (by simp [reads, heq])
      simp only [Place.value, write, Memory.setField, Function.update_self, Function.update_of_ne hne]

end Place

end ObjectMachine

-- ---------------------------------------------------------------------------
-- Elements
-- ---------------------------------------------------------------------------

namespace Site

open ObjectMachine

variable {site : Site} {answer : List Called → Value}

def placeOf? (site : Site) (name : String) : Option Place :=
  match site.method.register? name with
  | some register => some (.register register)
  | none => (site.unit.field? name).map fun field =>
    if field.isStatic then .static (site.fieldRef field) else .member (site.fieldRef field)

/-- The value of a variable. One that lies nowhere cannot be loaded, and counts as zero. -/
def variableValue (site : Site) (memory : Memory) (name : String) : Value :=
  ((site.placeOf? name).map (Place.value memory)).getD (.int 0)

def elementValue (site : Site) (memory : Memory) : Element → Value
  | .literal literal ty => .int ((literalValue literal ty).toOption.getD 0)
  | .operand name _ => site.variableValue memory name
  | .slot name index _ => memory.slots (site.variableValue memory name) (site.elementValue memory index)

/-- The places that are looked at when the element is loaded. -/
def placesRead (site : Site) : Element → List Place
  | .literal .. => []
  | .operand name _ => (site.placeOf? name).toList.flatMap Place.reads
  | .slot name index _ => (site.placeOf? name).toList.flatMap Place.reads ++ site.placesRead index

theorem implicitField_ok {name : String} {field : Field} (h : site.implicitField name = .ok field) :
    site.unit.field? name = some field := by
  unfold implicitField at h
  split at h
  · next found hfound =>
    split at h <;> cases h
    exact hfound
  · cases h

theorem placeOf?_of_register {name : String} {register : Nat}
    (h : site.method.register? name = some register) : site.placeOf? name = some (.register register) := by
  simp only [placeOf?, h]

theorem placeOf?_of_field {name : String} {field : Field} (hnone : site.method.register? name = none)
    (h : site.implicitField name = .ok field) : site.placeOf? name = some
      (if field.isStatic then .static (site.fieldRef field) else .member (site.fieldRef field)) := by
  simp only [placeOf?, hnone, implicitField_ok h, Option.map_some]

theorem loadVariable_run {name : String} {ty : Ty} {items : List Item}
    (h : site.loadVariable name ty = .ok items) (state : State) :
    run answer items state = some (state.push (site.variableValue state.memory name)) := by
  unfold loadVariable at h
  split at h
  · next register hregister =>
    rw [variableValue, placeOf?_of_register hregister]
    split at h <;> cases h <;> rfl
  · next hnone =>
    obtain ⟨field, hfield, h⟩ := ThreeAddress.bind_ok.mp h
    rw [variableValue, placeOf?_of_field hnone hfield]
    split at h
    · next hstatic =>
      cases h
      rw [if_pos hstatic]
      rfl
    · next hmember =>
      cases h
      rw [if_neg hmember]
      rfl

theorem intConstant_step (number : Int32) (state : State) :
    step answer (intConstant number) state = some (state.push (.int number)) := by
  unfold intConstant
  split
  · rfl
  · split
    · rfl
    · split <;> rfl

theorem load_run {element : Element} {items : List Item} (h : site.load element = .ok items)
    (state : State) :
    run answer items state = some (state.push (site.elementValue state.memory element)) := by
  induction element generalizing items state with
  | literal literal ty =>
    obtain ⟨number, hnumber, h⟩ := ThreeAddress.bind_ok.mp h
    cases h
    rw [run_op, intConstant_step, elementValue, hnumber]
    rfl
  | operand name ty =>
    cases ty with
    | classRef owner => cases h
    | _ => exact loadVariable_run h state
  | slot name index ty ih =>
    simp only [load, ThreeAddress.bind_ok] at h
    obtain ⟨array, harray, position, hposition, h⟩ := h
    split at h <;> cases h
    · rw [run_append, run_append, loadVariable_run harray, Option.bind_some, ih hposition]
      rfl
    · rw [run_append, run_append, loadVariable_run harray, Option.bind_some, ih hposition]
      rfl

theorem loadAll_run {elements : List Element} {items : List Item}
    (h : site.loadAll elements = .ok items) (state : State) :
    run answer items state = some { state with
      stack := (elements.map (site.elementValue state.memory)).reverse ++ state.stack } := by
  induction elements generalizing items state with
  | nil =>
    cases h
    rfl
  | cons element rest ih =>
    simp only [loadAll, ThreeAddress.bind_ok] at h
    obtain ⟨first, hfirst, others, hothers, h⟩ := h
    cases h
    rw [run_append, load_run hfirst, Option.bind_some, ih hothers]
    simp [State.push]

theorem place_ok {name : String} {ty : Ty} {before : List Item} {store : StackOp}
    (h : site.place (.operand name ty) = .ok (before, store)) :
    ∃ place, site.placeOf? name = some place ∧ before = place.addressItems ∧ place.StoredBy store := by
  unfold Site.place at h
  split at h
  · cases h
  · cases h
  · next heq =>
    cases heq
    cases hregister : site.method.register? name with
    | some register =>
      simp only [hregister] at h
      refine ⟨.register register, placeOf?_of_register hregister, ?_⟩
      split at h <;> cases h
      · exact ⟨rfl, .inl rfl⟩
      · exact ⟨rfl, .inr rfl⟩
    | none =>
      simp only [hregister, ThreeAddress.bind_ok] at h
      obtain ⟨field, hfield, h⟩ := h
      refine ⟨_, placeOf?_of_field hregister hfield, ?_⟩
      split at h
      · next hstatic =>
        cases h
        rw [if_pos hstatic]
        exact ⟨rfl, rfl⟩
      · next hmember =>
        cases h
        rw [if_neg hmember]
        exact ⟨rfl, rfl⟩
  · next heq => cases heq

end Site

end ThreeAddress
