import ThreeAddress.Lowering
import ThreeAddress.Proofs.ObjectMachine
import ThreeAddress.Proofs.ScalarSuccess

/-!
# Comparisons with zero

A comparison with a literal zero leaves the zero out. `Site.compareJump_agrees` compares the code with the
general form, which loads both sides and compares them: on every machine state both jump, go on or throw
alike, and end in the same state. The one difference is in what can be lowered. The zero is not loaded, so
nobody looks whether it can have its type, and `x < false.i32` passes where `x < true.i32` does not.

The machine is the one with objects, here with lookups that may fail. Which of them do is up to `Hazards`,
and may depend on all of the memory.
-/

namespace ThreeAddress

namespace ObjectMachine

/-- What an instruction looks up besides the registers. -/
inductive Lookup where
  | static (field : FieldRef)
  | field (object : Value) (field : FieldRef)
  | slot (array index : Value)

/-- Tells which lookups fail, such as that of a slot outside its array. -/
abbrev Hazards := Memory → Lookup → Bool

def lookup? (op : StackOp) (stack : List Value) : Option Lookup :=
  match op, stack with
  | .getStatic field, _ => some (.static field)
  | .getField field, object :: _ => some (.field object field)
  | .iaload, index :: array :: _ | .aaload, index :: array :: _ => some (.slot array index)
  | _, _ => none

/-- How a stretch of code is left. -/
inductive Exit where
  | through (state : State)
  | jumped (label : String) (state : State)
  /-- A lookup failed. -/
  | thrown

def jumpIf (holds : Bool) (label : String) (state : State) : Exit :=
  if holds then .jumped label state else .through state

/-- Runs an instruction. Only numbers are compared; at a reference the machine is stuck. -/
def perform (hazards : Hazards) (answer : List Called → Value) (op : StackOp) (state : State) :
    Option Exit :=
  match op, state.stack with
  | .ifZero comparison label, .int a :: stack =>
    some (jumpIf (comparison.holds a 0) label { state with stack })
  | .ifCompare comparison label, .int b :: .int a :: stack =>
    some (jumpIf (comparison.holds a b) label { state with stack })
  | op, stack =>
    if (lookup? op stack).any (hazards state.memory) then some .thrown
    else (step answer op state).map .through

/-- Goes on if nothing has jumped or failed. -/
def resume (exit : Option Exit) (next : State → Option Exit) : Option Exit :=
  match exit with
  | some (.through state) => next state
  | _ => exit

def pass (hazards : Hazards) (answer : List Called → Value) : List Item → State → Option Exit
  | [], state => some (.through state)
  | .label _ :: rest, state => pass hazards answer rest state
  | .op op :: rest, state => resume (perform hazards answer op state) (pass hazards answer rest)

variable {hazards : Hazards} {answer : List Called → Value}

theorem resume_resume (exit : Option Exit) (next later : State → Option Exit) :
    resume (resume exit next) later = resume exit fun state => resume (next state) later := by
  rcases exit with _ | _ | _ | _ <;> rfl

theorem pass_append (first second : List Item) (state : State) :
    pass hazards answer (first ++ second) state
      = resume (pass hazards answer first state) (pass hazards answer second) := by
  induction first generalizing state with
  | nil => rfl
  | cons item rest ih =>
    cases item with
    | label label => exact ih state
    | op op =>
      have hrest : pass hazards answer (rest ++ second)
          = fun state => resume (pass hazards answer rest state) (pass hazards answer second) := funext ih
      simp only [List.cons_append, pass, hrest, resume_resume]

theorem pass_op (op : StackOp) (state : State) :
    pass hazards answer (ops [op]) state = perform hazards answer op state := by
  show resume (perform hazards answer op state) (fun state => some (.through state)) = _
  rcases perform hazards answer op state with _ | _ | _ | _ <;> rfl

/-- The state with a value that was looked up, if there is one. -/
def State.receive (state : State) : Option Value → Exit
  | some value => .through (state.push value)
  | none => .thrown

/-- The value behind a lookup that may fail. -/
def guarded (hazards : Hazards) (memory : Memory) (lookup : Lookup) (value : Value) : Option Value :=
  if hazards memory lookup then none else some value

theorem perform_lookup {op : StackOp} {state below : State} {lookup : Lookup} {value : Value}
    (hlookup : lookup? op state.stack = some lookup)
    (hstep : step answer op state = some (below.push value)) :
    perform hazards answer op state
      = some (below.receive (guarded hazards state.memory lookup value)) := by
  unfold perform
  split
  · cases hlookup
  · cases hlookup
  · rw [hlookup, hstep, Option.any_some, guarded]
    split <;> rfl

/-- The code pushes a value that depends on the memory alone, or throws. -/
def Fetches (hazards : Hazards) (answer : List Called → Value) (items : List Item)
    (value? : Memory → Option Value) : Prop :=
  ∀ state, pass hazards answer items state = some (state.receive (value? state.memory))

theorem fetches_intConstant (number : Int32) :
    Fetches hazards answer (ops [intConstant number]) fun _ => some (.int number) := by
  intro state
  unfold intConstant
  split
  · rfl
  · split
    · rfl
    · split <;> rfl

theorem fetches_static (field : FieldRef) :
    Fetches hazards answer (ops [.getStatic field])
      fun memory => guarded hazards memory (.static field) (memory.statics field) := by
  intro state
  rw [pass_op]
  exact perform_lookup rfl rfl

theorem fetches_member (field : FieldRef) :
    Fetches hazards answer (ops [.aload 0, .getField field]) fun memory =>
      guarded hazards memory (.field (memory.registers 0) field)
        (memory.fields (memory.registers 0) field) := by
  intro state
  show pass hazards answer (ops [.getField field]) (state.push (state.memory.registers 0)) = _
  rw [pass_op]
  exact perform_lookup rfl rfl

/-- The value of a slot, once array and index are there. -/
def slot? (hazards : Hazards) (array? index? : Memory → Option Value) (memory : Memory) : Option Value := do
  let array ← array? memory
  let index ← index? memory
  guarded hazards memory (.slot array index) (memory.slots array index)

theorem Fetches.slot {array position : List Item} {array? index? : Memory → Option Value} {op : StackOp}
    (harray : Fetches hazards answer array array?) (hindex : Fetches hazards answer position index?)
    (hop : op = .iaload ∨ op = .aaload) :
    Fetches hazards answer (array ++ position ++ ops [op]) (slot? hazards array? index?) := by
  intro state
  unfold slot?
  rw [pass_append, pass_append, harray state]
  cases array? state.memory with
  | none => rfl
  | some base =>
    show resume (pass hazards answer position (state.push base)) _ = _
    rw [hindex (state.push base)]
    show resume (some ((state.push base).receive (index? state.memory))) _ = _
    cases index? state.memory with
    | none => rfl
    | some index =>
      show pass hazards answer (ops [op]) ((state.push base).push index)
        = some (state.receive (guarded hazards state.memory (.slot base index) _))
      rw [pass_op]
      rcases hop with rfl | rfl
      · exact perform_lookup rfl rfl
      · exact perform_lookup rfl rfl

/-- Zero is not loaded on the right: comparing with zero is comparing with a zero on the stack. -/
theorem Fetches.zero_right {items : List Item} {value? : Memory → Option Value}
    (h : Fetches hazards answer items value?) (comparison : Comparison) (target : String) (state : State) :
    pass hazards answer (items ++ ops [.ifZero comparison target]) state
      = pass hazards answer (items ++ ops [.iconst 0] ++ ops [.ifCompare comparison target]) state := by
  rw [List.append_assoc, pass_append, pass_append, h state]
  rcases value? state.memory with _ | _ | _ <;> rfl

theorem Fetches.zero_left {items : List Item} {value? : Memory → Option Value}
    (h : Fetches hazards answer items value?) {op : Operator} {comparison turned : Comparison}
    (hcomparison : op.comparison? = some comparison) (hturned : op.swapped.comparison? = some turned)
    (target : String) (state : State) :
    pass hazards answer (items ++ ops [.ifZero turned target]) state
      = pass hazards answer (ops [.iconst 0] ++ items ++ ops [.ifCompare comparison target]) state := by
  have hbelow : pass hazards answer (ops [.iconst 0] ++ items ++ ops [.ifCompare comparison target]) state
      = resume (pass hazards answer items (state.push (.int 0)))
        (pass hazards answer (ops [.ifCompare comparison target])) := by
    rw [pass_append, pass_append]
    rfl
  rw [hbelow, pass_append, h state, h (state.push (.int 0))]
  show _ = resume (some ((state.push (.int 0)).receive (value? state.memory))) _
  rcases value? state.memory with _ | number | _
  · rfl
  · show pass hazards answer (ops [.ifZero turned target]) (state.push (.int number))
      = pass hazards answer (ops [.ifCompare comparison target]) ((state.push (.int 0)).push (.int number))
    rw [pass_op, pass_op]
    show some (jumpIf (turned.holds number 0) target state)
      = some (jumpIf (comparison.holds 0 number) target state)
    rw [Operator.holds_swapped hcomparison hturned]
  · rfl

end ObjectMachine

/-- A zero that is written with a type which it cannot have. -/
def Element.isMisfit : Element → Bool
  | .literal (.int value) ty => value == 0 && ty != .int32 && ty != .boolean
  | .literal (.bool value) ty => !value && ty != .boolean
  | _ => false

theorem Element.isZero_of_isMisfit {element : Element} (h : element.isMisfit = true) :
    element.isZero = true := by
  cases element with
  | literal value ty =>
    cases value with
    | int number =>
      simp only [isMisfit, Bool.and_eq_true] at h
      exact h.1.1
    | bool holds =>
      simp only [isMisfit, Bool.and_eq_true] at h
      exact h.1
  | operand name ty => cases h
  | slot name index ty => cases h

theorem Operator.exists_swapped {op : Operator} {comparison : Comparison}
    (h : op.comparison? = some comparison) : ∃ turned, op.swapped.comparison? = some turned := by
  cases op <;> first | exact ⟨_, rfl⟩ | cases h

namespace Site

open ObjectMachine

variable {site : Site} {hazards : Hazards} {answer : List Called → Value}

theorem loadVariable_fetches {name : String} {ty : Ty} {items : List Item}
    (h : site.loadVariable name ty = .ok items) : ∃ value?, Fetches hazards answer items value? := by
  unfold loadVariable at h
  split at h
  · next register _ =>
    refine ⟨fun memory => some (memory.registers register), ?_⟩
    split at h <;> cases h <;> exact fun _ => rfl
  · obtain ⟨field, -, h⟩ := ThreeAddress.bind_ok.mp h
    split at h <;> cases h
    · exact ⟨_, fetches_static _⟩
    · exact ⟨_, fetches_member _⟩

theorem load_fetches {element : Element} {items : List Item} (h : site.load element = .ok items) :
    ∃ value?, Fetches hazards answer items value? := by
  induction element generalizing items with
  | literal literal ty =>
    obtain ⟨number, -, h⟩ := ThreeAddress.bind_ok.mp h
    cases h
    exact ⟨_, fetches_intConstant number⟩
  | operand name ty =>
    cases ty with
    | classRef owner => cases h
    | _ => exact loadVariable_fetches h
  | slot name index ty ih =>
    simp only [load, ThreeAddress.bind_ok] at h
    obtain ⟨array, harray, position, hposition, h⟩ := h
    obtain ⟨array?, harray⟩ := loadVariable_fetches harray
    obtain ⟨index?, hposition⟩ := ih hposition
    split at h <;> cases h
    · exact ⟨_, harray.slot hposition (.inl rfl)⟩
    · exact ⟨_, harray.slot hposition (.inr rfl)⟩

theorem load_of_isZero {element : Element} {items : List Item} (hzero : element.isZero = true)
    (h : site.load element = .ok items) : items = ops [.iconst 0] := by
  cases element with
  | literal value ty =>
    obtain ⟨number, hnumber, h⟩ := ThreeAddress.bind_ok.mp h
    cases h
    have hword : (Element.literal value ty).word? (fun _ => none) = some number :=
      congrArg some (literalValue_ok hnumber)
    rw [Element.word_of_isZero hzero hword]
    rfl
  | operand name ty => cases hzero
  | slot name index ty => cases hzero

theorem not_isMisfit_of_load {element : Element} {items : List Item} (h : site.load element = .ok items) :
    element.isMisfit = false := by
  cases element with
  | literal value ty =>
    obtain ⟨number, hnumber, -⟩ := ThreeAddress.bind_ok.mp h
    unfold literalValue at hnumber
    split at hnumber
    · simp [Element.isMisfit]
    · simp [Element.isMisfit]
    · simp [Element.isMisfit]
    · cases hnumber
  | operand name ty => rfl
  | slot name index ty => rfl

/-- A zero is loaded unless it cannot have its type. -/
theorem exists_load_of_isZero (site : Site) {element : Element} (hzero : element.isZero = true) :
    (∃ items, site.load element = .ok items) ∨ element.isMisfit = true := by
  cases element with
  | literal value ty =>
    cases value with
    | int number =>
      have hnumber : number = 0 := beq_iff_eq.mp hzero
      subst hnumber
      cases ty with
      | int32 => exact .inl ⟨_, rfl⟩
      | boolean => exact .inl ⟨_, rfl⟩
      | _ => exact .inr rfl
    | bool holds =>
      cases holds with
      | true => cases hzero
      | false =>
        cases ty with
        | boolean => exact .inl ⟨_, rfl⟩
        | _ => exact .inr rfl
  | operand name ty => cases hzero
  | slot name index ty => cases hzero

/-- The items push the element; a zero that cannot have its type counts as a zero like any other. -/
def Supplies (site : Site) (element : Element) (items : List Item) : Prop :=
  site.load element = .ok items ∨ (element.isMisfit = true ∧ items = ops [.iconst 0])

theorem Supplies.fetches {element : Element} {items : List Item} (h : site.Supplies element items)
    (hazards : Hazards) (answer : List Called → Value) : ∃ value?, Fetches hazards answer items value? := by
  rcases h with h | ⟨-, rfl⟩
  · exact load_fetches h
  · exact ⟨_, fetches_intConstant 0⟩

theorem Supplies.eq_of_isZero {element : Element} {items : List Item} (h : site.Supplies element items)
    (hzero : element.isZero = true) : items = ops [.iconst 0] := by
  rcases h with h | ⟨-, rfl⟩
  · exact load_of_isZero hzero h
  · rfl

theorem Supplies.eq_of_load {element : Element} {items loaded : List Item}
    (h : site.Supplies element items) (hload : site.load element = .ok loaded) : items = loaded := by
  rcases h with h | ⟨misfit, -⟩
  · exact Except.ok.inj (h.symm.trans hload)
  · rw [not_isMisfit_of_load hload] at misfit
    cases misfit

section

variable {binary : Binary} {comparison turned : Comparison} {target : String}

/-- The three forms of the code. -/
theorem compareJump_ok_iff (hcomparison : binary.op.comparison? = some comparison)
    (hturned : binary.op.swapped.comparison? = some turned) {items : List Item} :
    site.compareJump binary target = .ok items ↔
      (binary.right.isZero = true ∧
        ∃ left, site.load binary.left = .ok left ∧ left ++ ops [.ifZero comparison target] = items) ∨
      (binary.right.isZero = false ∧ binary.left.isZero = true ∧
        ∃ right, site.load binary.right = .ok right ∧ right ++ ops [.ifZero turned target] = items) ∨
      (binary.right.isZero = false ∧ binary.left.isZero = false ∧
        ∃ left right, site.load binary.left = .ok left ∧ site.load binary.right = .ok right ∧
          left ++ right ++ ops [.ifCompare comparison target] = items) := by
  simp only [compareJump, hcomparison, hturned]
  cases binary.right.isZero with
  | true => simp [ThreeAddress.bind_ok]
  | false =>
    cases binary.left.isZero with
    | true => simp [ThreeAddress.bind_ok]
    | false => simp [ThreeAddress.bind_ok]

theorem exists_compareJump_iff (hcomparison : binary.op.comparison? = some comparison)
    (hturned : binary.op.swapped.comparison? = some turned) :
    (∃ items, site.compareJump binary target = .ok items) ↔
      (∃ left right, site.load binary.left = .ok left ∧ site.load binary.right = .ok right) ∨
      ((∃ left, site.load binary.left = .ok left) ∧ binary.right.isMisfit = true) ∨
      (binary.left.isMisfit = true ∧ binary.right.isZero = false ∧
        ∃ right, site.load binary.right = .ok right) := by
  simp only [compareJump_ok_iff hcomparison hturned]
  constructor
  · rintro ⟨items, ⟨hright, left, hleft, -⟩ | ⟨hright, hzero, right, hload, -⟩ |
      ⟨-, -, left, right, hleft, hload, -⟩⟩
    · rcases exists_load_of_isZero site hright with ⟨right, hload⟩ | misfit
      · exact .inl ⟨left, right, hleft, hload⟩
      · exact .inr (.inl ⟨⟨left, hleft⟩, misfit⟩)
    · rcases exists_load_of_isZero site hzero with ⟨left, hleft⟩ | misfit
      · exact .inl ⟨left, right, hleft, hload⟩
      · exact .inr (.inr ⟨misfit, hright, right, hload⟩)
    · exact .inl ⟨left, right, hleft, hload⟩
  · rintro (⟨left, right, hleft, hload⟩ | ⟨⟨left, hleft⟩, misfit⟩ | ⟨misfit, hright, right, hload⟩)
    · cases hright : binary.right.isZero with
      | true => exact ⟨_, .inl ⟨rfl, left, hleft, rfl⟩⟩
      | false =>
        cases hzero : binary.left.isZero with
        | true => exact ⟨_, .inr (.inl ⟨rfl, rfl, right, hload, rfl⟩)⟩
        | false => exact ⟨_, .inr (.inr ⟨rfl, rfl, left, right, hleft, hload, rfl⟩)⟩
    · exact ⟨_, .inl ⟨Element.isZero_of_isMisfit misfit, left, hleft, rfl⟩⟩
    · exact ⟨_, .inr (.inl ⟨hright, Element.isZero_of_isMisfit misfit, right, hload, rfl⟩)⟩

theorem compareJump_pass (hcomparison : binary.op.comparison? = some comparison)
    (hturned : binary.op.swapped.comparison? = some turned) {items left right : List Item}
    (h : site.compareJump binary target = .ok items) (hleft : site.Supplies binary.left left)
    (hright : site.Supplies binary.right right) (state : State) :
    pass hazards answer items state
      = pass hazards answer (left ++ right ++ ops [.ifCompare comparison target]) state := by
  rcases (compareJump_ok_iff hcomparison hturned).mp h with ⟨hzero, loaded, hload, rfl⟩ |
    ⟨-, hzero, loaded, hload, rfl⟩ | ⟨-, -, first, second, hfirst, hsecond, rfl⟩
  · obtain ⟨value?, hfetches⟩ := hleft.fetches hazards answer
    rw [← hleft.eq_of_load hload, hright.eq_of_isZero hzero]
    exact hfetches.zero_right comparison target state
  · obtain ⟨value?, hfetches⟩ := hright.fetches hazards answer
    rw [← hright.eq_of_load hload, hleft.eq_of_isZero hzero]
    exact hfetches.zero_left hcomparison hturned target state
  · rw [hleft.eq_of_load hfirst, hright.eq_of_load hsecond]

end

/-- The code for a comparison can be made if both sides can be loaded, or if one can and the other is a
zero that is left out although it cannot have its type. The code does what the general form does. -/
theorem compareJump_agrees (site : Site) {binary : Binary} {comparison : Comparison}
    (h : binary.op.comparison? = some comparison) (target : String) :
    ((∃ items, site.compareJump binary target = .ok items) ↔
      (∃ left right, site.load binary.left = .ok left ∧ site.load binary.right = .ok right) ∨
      ((∃ left, site.load binary.left = .ok left) ∧ binary.right.isMisfit = true) ∨
      (binary.left.isMisfit = true ∧ binary.right.isZero = false ∧
        ∃ right, site.load binary.right = .ok right)) ∧
    ∀ items left right, site.compareJump binary target = .ok items →
      site.Supplies binary.left left → site.Supplies binary.right right →
      ∀ hazards answer state, pass hazards answer items state
        = pass hazards answer (left ++ right ++ ops [.ifCompare comparison target]) state := by
  obtain ⟨turned, hturned⟩ := Operator.exists_swapped h
  refine ⟨exists_compareJump_iff h hturned, ?_⟩
  intro items left right hitems hleft hright hazards answer state
  exact compareJump_pass h hturned hitems hleft hright state

end Site

/-- A zero on the left of a slot. -/
def zeroBelowSlot : Binary where
  op := .lt
  left := .literal (.int 0) .int32
  right := .slot "a" (.operand "x" .int32) .int32

def belowMisfit : Binary where
  op := .lt
  left := .operand "x" .int32
  right := .literal (.bool false) .int32

def zerosDraft : Draft :=
  let start := { Draft.new "f" .void with isStatic := true }
  let named := (start.addParam "x" .int32).addParam "a" (.array .int32)
  let compared := named.push (.branch (.binary zeroBelowSlot) "out")
  ((compared.push (.branch (.binary belowMisfit) "out")).label "out").push (.ret none .void)

def zerosMethod : Method :=
  match zerosDraft.build with
  | .ok method => method
  | .error _ => zerosDraft.unlinked

def zerosUnit : ClassUnit where
  name := "Zeros"
  super? := none
  access := .pub
  isFinal := false
  imports := []
  fields := []
  methods := [zerosMethod]

def zerosSite : Site where
  unit := zerosUnit
  method := zerosMethod

/-- The comparison is turned round. -/
theorem compareJump_agrees_slot :
    zerosSite.compareJump zeroBelowSlot "out" = .ok (ops [.aload 1, .iload 0, .iaload, .ifZero .gt "out"]) ∧
      ∀ hazards answer state,
        ObjectMachine.pass hazards answer (ops [.aload 1, .iload 0, .iaload, .ifZero .gt "out"]) state
          = ObjectMachine.pass hazards answer
            (ops [.iconst 0, .aload 1, .iload 0, .iaload, .ifCompare .lt "out"]) state := by
  have left : zerosSite.load zeroBelowSlot.left = .ok (ops [.iconst 0]) := by decide
  have right : zerosSite.load zeroBelowSlot.right = .ok (ops [.aload 1, .iload 0, .iaload]) := by
    decide +kernel
  have jump : zerosSite.compareJump zeroBelowSlot "out"
      = .ok (ops [.aload 1, .iload 0, .iaload, .ifZero .gt "out"]) := by decide +kernel
  exact ⟨jump, (zerosSite.compareJump_agrees rfl "out").2 _ _ _ jump (.inl left) (.inl right)⟩

/-- The class can be lowered, although the right side of its second comparison cannot be loaded. -/
theorem compareJump_leaves_misfit_out :
    zerosDraft.build = .ok zerosMethod ∧
      (zerosMethod.instructions.map Instruction.statement)[1]? = some (.branch (.binary belowMisfit) "out") ∧
      zerosSite.load belowMisfit.right = .error (.literalType "false" "i32") ∧
      zerosSite.compareJump belowMisfit "out" = .ok (ops [.iload 0, .ifZero .lt "out"]) ∧
      zerosUnit.lower.toOption.isSome = true := by
  refine ⟨rfl, rfl, by decide, ?_, ?_⟩ <;> decide +kernel

end ThreeAddress
