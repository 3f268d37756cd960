import ThreeAddress.Proofs.ObjectMachine

/-!
# Creating and constructing an object in one go

The creation of an object and the call of its constructor are lowered together or one by one. The first
way stores the object after the call, so the arguments are loaded while the variable still has its old
value, and it takes the class from the creation instead of the call. `fused_agree_iff` says when this
makes no difference on the machine with objects: exactly if the pair is `Separable`. Lowering does not
look at that; `fused_reads_stale` is a pair that it fuses and that is not.
-/

namespace ThreeAddress

open ObjectMachine

namespace ObjectMachine

/-- The next reference is nowhere in memory. -/
def State.NextIsFresh (state : State) : Prop :=
  (∀ register, state.memory.registers register ≠ .ref state.fresh) ∧
    (∀ field, state.memory.statics field ≠ .ref state.fresh) ∧
    (∀ object field, state.memory.fields object field ≠ .ref state.fresh) ∧
    ∀ array index, state.memory.slots array index ≠ .ref state.fresh

/-- Both runs get to their end, with the same new entry in the trace, the same registers, and stacks of
the same depth. -/
def RunsAlike (answer : List Called → Value) (state : State) (items items' : List Item) : Prop :=
  ∃ after after' entry, run answer items state = some after ∧ run answer items' state = some after' ∧
    after.trace = state.trace ++ [entry] ∧ after'.trace = state.trace ++ [entry] ∧
    after.memory.registers = after'.memory.registers ∧ after.stack.length = after'.stack.length

/-- The state in which a new object lies in its place and its constructor was called. -/
def State.constructed (state : State) (place : Place) (owner : String) (receiver : Value)
    (args : List Value) : State where
  stack := state.stack
  memory := place.write state.memory (.ref state.fresh)
  fresh := state.fresh + 1
  trace := state.trace ++ [{ owner, method := Draft.constructorName, receiver, args }]

end ObjectMachine

theorem Construction.create_of_of? {inst next : Instruction} {construction : Construction}
    (h : Construction.of? inst next = some construction) :
    construction.create.invocation = .new ∧ (∀ item, construction.create.ret ≠ .array item) ∧
      ∃ name ty, construction.dest = .operand name ty ∧ construction.init.target.name? = some name := by
  unfold Construction.of? at h
  split at h
  · next name ty declared create init _ _ =>
    simp only [Option.ite_none_right_eq_some, Bool.and_eq_true, beq_iff_eq] at h
    obtain ⟨⟨⟨⟨⟨hcreates, -⟩, -⟩, hname⟩, -⟩, heq⟩ := h
    cases heq
    refine ⟨?_, fun item hitem => ?_, name, ty, rfl, hname⟩
    · split at hcreates
      · cases hcreates
      · simpa using hcreates
    · change create.ret = _ at hitem
      rw [hitem] at hcreates
      cases hcreates
  · cases h

namespace Site

variable {site : Site} {answer : List Called → Value} {n k : Nat}

/-- Nothing that is done between creating and storing the object can tell the order: the arguments do
not look where it is stored, the receiver is what was stored, both ways have the same class, and no
result gets in between. -/
structure Separable (site : Site) (construction : Construction) : Prop where
  returns_nothing : construction.init.ret = .void
  same_class : site.newClass construction.create
    = site.specialClass construction.init Draft.constructorName
  receives_variable : ∃ name ty, construction.init.target = .operand name ty
  args_apart : ∀ name ty place, construction.dest = .operand name ty →
    site.placeOf? name = some place → ∀ arg ∈ construction.init.args, place ∉ site.placesRead arg

-- ---------------------------------------------------------------------------
-- Both runs
-- ---------------------------------------------------------------------------

theorem invoke_run {owner method : String} {call : Call} {items : List Item}
    (h : site.invoke .special owner method call = .ok items) {state : State} {receiver : Value}
    {rest : List Value} (hstack : state.stack = receiver :: rest) :
    ∃ result, run answer items state = some { state with
      stack := if call.ret = .void then rest else result :: rest
      trace := state.trace ++ [{
        owner, method, receiver, args := call.args.map (site.elementValue state.memory) }] } := by
  obtain ⟨loaded, hloaded, h⟩ := ThreeAddress.bind_ok.mp h
  cases h
  rw [run_append, loadAll_run hloaded, Option.bind_some, run_op, hstack]
  refine ⟨answer (state.trace ++ [{
    owner, method, receiver, args := call.args.map (site.elementValue state.memory) }]), ?_⟩
  have hlength : (call.args.map fun arg => site.unit.descriptor arg.ty).length
      = (call.args.map (site.elementValue state.memory)).reverse.length := by simp
  unfold step
  simp only [State.call, hlength, List.drop_left, List.take_left, List.reverse_reverse,
    descriptor_eq_void_iff]

/-- In one go, the arguments are loaded from the old memory. -/
theorem construction_run {construction : Construction} {items : List Item} {name : String} {ty : Ty}
    (hdest : construction.dest = .operand name ty) (h : site.construction construction = .ok items)
    (hvoid : construction.init.ret = .void) :
    ∃ place owner, site.placeOf? name = some place ∧ site.newClass construction.create = .ok owner ∧
      ∀ answer state, run answer items state = some (state.constructed place owner (.ref state.fresh)
        (construction.init.args.map (site.elementValue state.memory))) := by
  simp only [Site.construction, hdest, ThreeAddress.bind_ok] at h
  obtain ⟨⟨before, store⟩, hplace, owner, howner, invoked, hinvoked, h⟩ := h
  cases h
  obtain ⟨place, hlies, rfl, hstored⟩ := place_ok hplace
  refine ⟨place, owner, hlies, howner, fun answer state => ?_⟩
  obtain ⟨result, hinvoke⟩ := @invoke_run _ answer _ _ _ _ hinvoked
    { state with
      stack := .ref state.fresh :: .ref state.fresh :: (place.address state.memory ++ state.stack)
      fresh := state.fresh + 1 } _ _ rfl
  rw [if_pos hvoid] at hinvoke
  have hnew : run answer (ops [.new owner, .dup])
      { state with stack := place.address state.memory ++ state.stack } = some
        { state with
          stack := .ref state.fresh :: .ref state.fresh :: (place.address state.memory ++ state.stack)
          fresh := state.fresh + 1 } := rfl
  rw [run_append, run_append, run_append, Place.run_addressItems, Option.bind_some, hnew,
    Option.bind_some, hinvoke, Option.bind_some, run_op, Place.step_store hstored rfl]
  rfl

theorem create_run {dest : Element} {ty : Ty} {create : Call} {items : List Item} {name : String}
    {nameTy : Ty} (hdest : dest = .operand name nameTy) (hnew : create.invocation = .new)
    (harray : ∀ item, create.ret ≠ .array item)
    (h : site.statement (.assign dest ty (.call create)) n = (.ok items, k)) :
    ∃ place, site.placeOf? name = some place ∧
      ∀ answer state, run answer items state = some { state with
        memory := place.write state.memory (.ref state.fresh), fresh := state.fresh + 1 } := by
  simp only [Site.statement, assign, increment?_call, Site.value, Site.call, hnew, Emit.bind_ok,
    Emit.lift_ok, Emit.pure_ok] at h
  obtain ⟨⟨before, store⟩, _, ⟨hplace, rfl⟩, created, _, ⟨hcreated, rfl⟩, rfl, rfl⟩ := h
  rw [hdest] at hplace
  obtain ⟨place, hlies, rfl, hstored⟩ := place_ok hplace
  unfold newObject at hcreated
  split at hcreated
  · next item hitem => exact absurd hitem (harray item)
  · obtain ⟨owner, -, hcreated⟩ := ThreeAddress.bind_ok.mp hcreated
    cases hcreated
    refine ⟨place, hlies, fun answer state => ?_⟩
    have hnew : run answer (ops [.new owner])
        { state with stack := place.address state.memory ++ state.stack } = some
          { state with
            stack := .ref state.fresh :: (place.address state.memory ++ state.stack)
            fresh := state.fresh + 1 } := rfl
    rw [run_append, run_append, Place.run_addressItems, Option.bind_some, hnew, Option.bind_some, run_op,
      Place.step_store hstored rfl]

theorem init_run {init : Call} {items : List Item} (hspecial : init.invocation = .special)
    (hname : init.method? = some Draft.constructorName)
    (h : site.statement (.call init) n = (.ok items, k)) :
    ∃ owner, site.specialClass init Draft.constructorName = .ok owner ∧
      ∀ answer state, run answer items state = some { state with
        trace := state.trace ++ [{
          owner, method := Draft.constructorName
          receiver := site.elementValue state.memory init.target
          args := init.args.map (site.elementValue state.memory) }] } := by
  simp only [Site.statement, Site.call, hspecial, methodName, hname, Emit.bind_ok, Emit.lift_ok,
    Emit.pure_ok, ThreeAddress.bind_ok, Except.ok.injEq, exists_eq_left'] at h
  obtain ⟨called, _, ⟨⟨owner, howner, target, htarget, invoked, hinvoked, rfl⟩, rfl⟩, rfl, rfl⟩ := h
  refine ⟨owner, howner, fun answer state => ?_⟩
  obtain ⟨result, hinvoke⟩ := @invoke_run _ answer _ _ _ _ hinvoked
    (state.push (site.elementValue state.memory init.target)) _ _ rfl
  have hcalled := @run_append answer target invoked state
  rw [load_run htarget, Option.bind_some, hinvoke] at hcalled
  by_cases hvoid : init.ret = .void
  · rw [if_pos (Ty.isVoid_iff.mpr hvoid), hcalled, if_pos hvoid]
    rfl
  · rw [if_neg fun h => hvoid (Ty.isVoid_iff.mp h), run_append, hcalled, if_neg hvoid]
    rfl

/-- One by one, the call sees the memory with the new object in it. -/
theorem separate_run {inst next : Instruction} {construction : Construction} {first second : List Item}
    {n n' n'' : Nat} {name : String} {ty : Ty}
    (hof : Construction.of? inst next = some construction)
    (hdest : construction.dest = .operand name ty)
    (hfirst : site.statement inst.statement n = (.ok first, n'))
    (hsecond : site.statement next.statement n' = (.ok second, n'')) :
    ∃ place owner, site.placeOf? name = some place ∧
      site.specialClass construction.init Draft.constructorName = .ok owner ∧
      ∀ answer state, run answer (first ++ second) state = some (state.constructed place owner
        (site.elementValue (place.write state.memory (.ref state.fresh)) construction.init.target)
        (construction.init.args.map
          (site.elementValue (place.write state.memory (.ref state.fresh))))) := by
  obtain ⟨hcall, hspecial, hname, -⟩ := Construction.of?_eq_some hof
  obtain ⟨hnew, harray, -⟩ := Construction.create_of_of? hof
  obtain ⟨-, ⟨declared, hassign⟩, -⟩ := Construction.source_of_of? hof
  rw [hassign] at hfirst
  rw [hcall] at hsecond
  obtain ⟨place, hplace, hcreate⟩ := create_run hdest hnew harray hfirst
  obtain ⟨owner, howner, hinit⟩ := init_run hspecial hname hsecond
  refine ⟨place, owner, hplace, howner, fun answer state => ?_⟩
  rw [run_append, hcreate, Option.bind_some, hinit]
  rfl

-- ---------------------------------------------------------------------------
-- Elements that look at a place, and others
-- ---------------------------------------------------------------------------

@[simp] theorem slots_write (place : Place) (memory : Memory) (value : Value) :
    (place.write memory value).slots = memory.slots := by
  cases place <;> rfl

theorem variableValue_write {name : String} {place : Place}
    (h : place ∉ (site.placeOf? name).toList.flatMap Place.reads) (memory : Memory) (value : Value) :
    site.variableValue (place.write memory value) name = site.variableValue memory name := by
  unfold variableValue
  cases hplace : site.placeOf? name with
  | none => rfl
  | some other =>
    have hreads : place ∉ other.reads := by simpa [hplace] using h
    exact Place.value_write_of_not_mem hreads memory value

theorem elementValue_write {element : Element} {place : Place} (h : place ∉ site.placesRead element)
    (memory : Memory) (value : Value) :
    site.elementValue (place.write memory value) element = site.elementValue memory element := by
  induction element with
  | literal literal ty => rfl
  | operand name ty => exact variableValue_write h memory value
  | slot name index ty ih =>
    simp only [placesRead, List.mem_append, not_or] at h
    rw [elementValue, elementValue, slots_write, variableValue_write h.1, ih h.2]

theorem elementValue_write_operand {name : String} {ty : Ty} {place : Place}
    (hplace : site.placeOf? name = some place) (memory : Memory) (value : Value) :
    site.elementValue (place.write memory value) (.operand name ty) = value := by
  simp only [elementValue, variableValue, hplace, Option.map_some, Option.getD_some]
  exact Place.value_write_self memory value place

end Site

namespace ObjectMachine

def Value.isRef : Value → Bool
  | .ref _ => true
  | .int _ => false

/-- A state that shows where references get to: it has none in variables, and what is found by way of a
reference is one again, though not the next one. -/
def probe : State where
  stack := []
  memory := {
    registers := fun _ => .int 0
    statics := fun _ => .int 0
    fields := fun object _ => if object.isRef then .ref 1 else .int 0
    slots := fun array index => if array.isRef || index.isRef then .ref 1 else .int 0 }
  fresh := 0
  trace := []

theorem probe_nextIsFresh : probe.NextIsFresh := by
  refine ⟨fun _ => Value.noConfusion, fun _ => Value.noConfusion, fun object _ => ?_,
    fun array index => ?_⟩
  · simp only [probe]
    split <;> decide
  · simp only [probe]
    split <;> decide

theorem isRef_slots_probe (array index : Value) :
    (probe.memory.slots array index).isRef = (array.isRef || index.isRef) := by
  simp only [probe]
  split
  · next h => exact h.symm
  · next h => exact (Bool.eq_false_iff.mpr h).symm

end ObjectMachine

namespace Site

variable {site : Site}

theorem isRef_variableValue_probe (name : String) :
    (site.variableValue probe.memory name).isRef = false := by
  unfold variableValue
  cases site.placeOf? name with
  | none => rfl
  | some place => cases place <;> rfl

theorem isRef_elementValue_probe (element : Element) :
    (site.elementValue probe.memory element).isRef = false := by
  induction element with
  | literal literal ty => rfl
  | operand name ty => exact isRef_variableValue_probe name
  | slot name index ty ih =>
    rw [elementValue, isRef_slots_probe, isRef_variableValue_probe, ih]
    rfl

theorem isRef_variableValue_write {name : String} {place : Place}
    (h : place ∈ (site.placeOf? name).toList.flatMap Place.reads) :
    (site.variableValue (place.write probe.memory (.ref 0)) name).isRef = true := by
  unfold variableValue
  cases hplace : site.placeOf? name with
  | none => simp [hplace] at h
  | some other =>
    have hreads : place ∈ other.reads := by simpa [hplace] using h
    cases other with
    | member field =>
      -- Either the object that has the field is the new one, or the field is.
      rcases List.mem_cons.mp hreads with rfl | hfield
      · rfl
      · obtain rfl := List.mem_singleton.mp hfield
        simp only [Option.map_some, Option.getD_some, Place.value_write_self]
        rfl
    | _ =>
      obtain rfl := List.mem_singleton.mp hreads
      simp only [Option.map_some, Option.getD_some, Place.value_write_self]
      rfl

theorem isRef_elementValue_write {element : Element} {place : Place}
    (h : place ∈ site.placesRead element) :
    (site.elementValue (place.write probe.memory (.ref 0)) element).isRef = true := by
  induction element with
  | literal literal ty => cases h
  | operand name ty => exact isRef_variableValue_write h
  | slot name index ty ih =>
    rw [elementValue, slots_write, isRef_slots_probe]
    rcases List.mem_append.mp h with hname | hindex
    · rw [isRef_variableValue_write hname, Bool.true_or]
    · rw [ih hindex, Bool.or_true]

-- ---------------------------------------------------------------------------
-- When it makes no difference
-- ---------------------------------------------------------------------------

variable {inst next : Instruction} {construction : Construction} {fused first second : List Item}
  {n n' n'' : Nat}

theorem Separable.run_eq (separable : site.Separable construction)
    (hof : Construction.of? inst next = some construction)
    (hfused : site.construction construction = .ok fused)
    (hfirst : site.statement inst.statement n = (.ok first, n'))
    (hsecond : site.statement next.statement n' = (.ok second, n''))
    (answer : List Called → Value) (state : State) :
    ∃ place owner args,
      run answer fused state = some (state.constructed place owner (.ref state.fresh) args) ∧
      run answer (first ++ second) state
        = some (state.constructed place owner (.ref state.fresh) args) := by
  obtain ⟨-, -, name, ty, hdest, htarget⟩ := Construction.create_of_of? hof
  obtain ⟨place, owner, hplace, howner, hone⟩ :=
    construction_run hdest hfused separable.returns_nothing
  obtain ⟨place', owner', hplace', howner', htwo⟩ := separate_run hof hdest hfirst hsecond
  cases hplace.symm.trans hplace'
  cases howner.symm.trans (separable.same_class.trans howner')
  refine ⟨place, owner, _, hone answer state, ?_⟩
  -- The receiver is what was just stored, and the arguments are what they were before.
  have hreceiver : site.elementValue (place.write state.memory (.ref state.fresh))
      construction.init.target = .ref state.fresh := by
    obtain ⟨found, foundTy, hoperand⟩ := separable.receives_variable
    rw [hoperand] at htarget ⊢
    simp only [Element.name?] at htarget
    split at htarget <;> cases htarget
    exact elementValue_write_operand hplace state.memory _
  have hargs : construction.init.args.map
      (site.elementValue (place.write state.memory (.ref state.fresh)))
        = construction.init.args.map (site.elementValue state.memory) := by
    refine List.map_congr_left fun arg harg => ?_
    exact elementValue_write (separable.args_apart name ty place hdest hplace arg harg) state.memory _
  rw [htwo, hreceiver, hargs]

/-- Behind the fused code the stack is deeper by one if the constructor returns something. -/
theorem returns_nothing_of_agree (hof : Construction.of? inst next = some construction)
    (hfused : site.construction construction = .ok fused)
    (hfirst : site.statement inst.statement n = (.ok first, n'))
    (hsecond : site.statement next.statement n' = (.ok second, n''))
    {answer : List Called → Value} {state : State}
    (hagree : RunsAlike answer state fused (first ++ second)) : construction.init.ret = .void := by
  obtain ⟨-, -, name, ty, hdest, -⟩ := Construction.create_of_of? hof
  obtain ⟨place, owner, -, -, htwo⟩ := separate_run hof hdest hfirst hsecond
  obtain ⟨after, after', entry, hone, hother, -, -, -, hdepth⟩ := hagree
  rw [htwo] at hother
  cases hother
  obtain ⟨row, rfl, -, hnet⟩ := construction_shifts hfused
  have hlength := length_run_ops hone
  rw [hnet, hdepth] at hlength
  by_contra hresult
  rw [if_neg hresult] at hlength
  simp only [State.constructed] at hlength
  omega

theorem separable_of_agree (hof : Construction.of? inst next = some construction)
    (hfused : site.construction construction = .ok fused)
    (hfirst : site.statement inst.statement n = (.ok first, n'))
    (hsecond : site.statement next.statement n' = (.ok second, n''))
    {answer : List Called → Value} (hagree : RunsAlike answer probe fused (first ++ second)) :
    site.Separable construction := by
  have hvoid := returns_nothing_of_agree hof hfused hfirst hsecond hagree
  obtain ⟨-, -, name, ty, hdest, htarget⟩ := Construction.create_of_of? hof
  obtain ⟨place, owner, hplace, howner, hone⟩ := construction_run hdest hfused hvoid
  obtain ⟨place', owner', hplace', howner', htwo⟩ := separate_run hof hdest hfirst hsecond
  cases hplace.symm.trans hplace'
  obtain ⟨after, after', entry, hafter, hafter', htrace, htrace', -⟩ := hagree
  rw [hone] at hafter
  rw [htwo] at hafter'
  cases hafter
  cases hafter'
  -- The two entries are the same, so they agree in every part.
  have hentry := (List.append_cancel_left htrace).trans (List.append_cancel_left htrace').symm
  simp only [List.cons.injEq, Called.mk.injEq, and_true, true_and] at hentry
  obtain ⟨rfl, hreceiver, hargs⟩ := hentry
  refine ⟨hvoid, howner.trans howner'.symm, ?_, ?_⟩
  · cases hinit : construction.init.target with
    | literal literal literalTy =>
      rw [hinit] at htarget
      cases htarget
    | operand found foundTy => exact ⟨found, foundTy, rfl⟩
    | slot found index itemTy =>
      rw [hinit, elementValue, slots_write] at hreceiver
      simp only [probe] at hreceiver
      split at hreceiver <;> cases hreceiver
  · intro found foundTy other hfound hother arg harg hreads
    cases hdest.symm.trans hfound
    cases hplace.symm.trans hother
    have hsame := List.map_inj_left.mp hargs arg harg
    have hold := @isRef_elementValue_probe site arg
    have hnew := isRef_elementValue_write hreads
    rw [hsame] at hold
    cases hold.symm.trans hnew

end Site

theorem fused_agree_iff {site : Site} {inst next : Instruction} {construction : Construction}
    {fused first second : List Item} {n n' n'' : Nat}
    (hof : Construction.of? inst next = some construction)
    (hfused : site.construction construction = .ok fused)
    (hfirst : site.statement inst.statement n = (.ok first, n'))
    (hsecond : site.statement next.statement n' = (.ok second, n'')) :
    (site.Separable construction ↔
      ∀ answer state, state.NextIsFresh → RunsAlike answer state fused (first ++ second)) ∧
    (site.Separable construction →
      ∀ answer state, run answer fused state = run answer (first ++ second) state) := by
  refine ⟨⟨fun separable answer state _ => ?_, fun hagree => ?_⟩, fun separable answer state => ?_⟩
  · obtain ⟨place, owner, args, hone, htwo⟩ := separable.run_eq hof hfused hfirst hsecond answer state
    exact ⟨_, _, _, hone, htwo, rfl, rfl, rfl, rfl⟩
  · exact Site.separable_of_agree hof hfused hfirst hsecond
      (hagree (fun _ => .int 0) probe probe_nextIsFresh)
  · obtain ⟨place, owner, args, hone, htwo⟩ := separable.run_eq hof hfused hfirst hsecond answer state
    rw [hone, htwo]

/-- Makes a new object in the place of a variable, and passes a variable to the constructor. -/
def renewal (arg : String) : Construction where
  dest := .operand "x" (.object "A")
  create := {
    invocation := .new, target := .ofClass "A", method? := none, args := [], ret := .object "A" }
  init := {
    invocation := .special, target := .operand "x" (.object "A")
    method? := some Draft.constructorName, args := [.operand arg (.object "A")], ret := .void }

def renewDraft (arg : String) : Draft :=
  let start := { Draft.new "renew" .void with isStatic := true }
  (((start.addParam "x" (.object "A")).addParam "y" (.object "A")).push
    (.assign (renewal arg).dest (.object "A") (.call (renewal arg).create))).push
    (.call (renewal arg).init)

def renewMethod (arg : String) : Method :=
  match (renewDraft arg).build with
  | .ok method => method
  | .error _ => (renewDraft arg).unlinked

def renewSite (arg : String) : Site where
  unit := { name := "Renew", super? := none, access := .pub, isFinal := false, imports := []
            fields := [], methods := [renewMethod arg] }
  method := renewMethod arg

def renewCall : StackOp :=
  .invoke { dispatch := .special, owner := "A", method := "<init>", params := ["LA;"], ret := "V" }

/-- The argument is the second parameter, which stays where it is. -/
theorem fused_agree_iff_renew :
    (renewDraft "y").build = .ok (renewMethod "y") ∧ ∃ create init,
      (renewMethod "y").instructions = [create, init] ∧
      Construction.of? create init = some (renewal "y") ∧
      (renewSite "y").construction (renewal "y")
        = .ok (ops [.new "A", .dup, .aload 1, renewCall, .astore 0]) ∧
      (renewSite "y").statement create.statement 0 = (.ok (ops [.new "A", .astore 0]), 0) ∧
      (renewSite "y").statement init.statement 0 = (.ok (ops [.aload 0, .aload 1, renewCall]), 0) ∧
      (renewSite "y").Separable (renewal "y") ∧
      ∀ answer state, run answer (ops [.new "A", .dup, .aload 1, renewCall, .astore 0]) state
        = run answer (ops [.new "A", .astore 0] ++ ops [.aload 0, .aload 1, renewCall]) state := by
  refine ⟨rfl, _, _, rfl, rfl, rfl, rfl, rfl, ?_⟩
  have separable : (renewSite "y").Separable (renewal "y") := by
    refine ⟨rfl, rfl, ⟨_, _, rfl⟩, ?_⟩
    intro name ty place hdest hplace arg harg
    cases hdest
    cases hplace
    cases List.mem_singleton.mp harg
    decide
  exact ⟨separable, (@fused_agree_iff (renewSite "y")
    { id := 1, labels := [], successors := [.instruction 2]
      statement := .assign (renewal "y").dest (.object "A") (.call (renewal "y").create) }
    { id := 2, labels := [], successors := [.exit], statement := .call (renewal "y").init }
    _ _ _ _ 0 0 0 rfl rfl rfl rfl).2 separable⟩

/-- The argument is the variable that the object is stored in. In one go the constructor gets the old
value of it, and one by one it gets the object. -/
theorem fused_reads_stale :
    (renewDraft "x").build = .ok (renewMethod "x") ∧
      ∃ create init fused first second,
        (renewMethod "x").instructions = [create, init] ∧
        Construction.of? create init = some (renewal "x") ∧
        (renewSite "x").construction (renewal "x") = .ok fused ∧
        (renewSite "x").statement create.statement 0 = (.ok first, 0) ∧
        (renewSite "x").statement init.statement 0 = (.ok second, 0) ∧
        probe.NextIsFresh ∧
        (run (fun _ => .int 0) fused probe).map State.trace = some [{
          owner := "A", method := "<init>", receiver := .ref 0, args := [.int 0] }] ∧
        (run (fun _ => .int 0) (first ++ second) probe).map State.trace = some [{
          owner := "A", method := "<init>", receiver := .ref 0, args := [.ref 0] }] :=
  ⟨rfl, _, _, _, _, _, rfl, rfl, rfl, rfl, rfl, probe_nextIsFresh, rfl, rfl⟩

end ThreeAddress
