import ThreeAddress.Proofs.Accepted
import ThreeAddress.Proofs.Drift
import ThreeAddress.Proofs.StackLimits
import ThreeAddress.Proofs.Touched

/-!
# Built methods are closed

Lowering looks up variables, labels and the instructions that labels lead to. In a method that was built
from a draft it finds all of them, and the same goes for the labels that the finished body jumps to.
`Finds` says of a computation that it does not fail for want of any of these; one lemma for each function
of `Site` carries it from the elements up to `Site.listing`. `ClassUnit.lower_closed` is the main
statement.
-/

namespace ThreeAddress

/-- Something was looked up that is not there. -/
def Fault.isDangling : Fault → Bool
  | .unresolved _ | .unknownLabel _ | .missingInstruction .. => true
  | _ => false

section

variable {α β : Type}

/-- If the computation fails, it is not because of something that is not there. -/
def Finds (outcome : Except Fault α) : Prop :=
  ∀ fault, outcome = .error fault → fault.isDangling = false

theorem finds_ok {a : α} : Finds (.ok a) :=
  fun _ h => nomatch h

theorem finds_error {fault : Fault} (h : fault.isDangling = false) :
    Finds (.error fault : Except Fault α) := by
  rintro _ ⟨⟩
  exact h

theorem Finds.bind {x : Except Fault α} {f : α → Except Fault β} (h : Finds x)
    (hf : ∀ a, Finds (f a)) : Finds (x >>= f) := by
  cases x with
  | error fault => exact finds_error (h fault rfl)
  | ok a => exact hf a

namespace Emit

/-- The same, from every number on. -/
def Finds (p : Emit α) : Prop := ∀ n, ThreeAddress.Finds (p n).1

theorem finds_pure {a : α} : Finds (pure a) :=
  fun _ => finds_ok

theorem finds_fail {fault : Fault} (h : fault.isDangling = false) : Finds (fail fault : Emit α) :=
  fun _ => finds_error h

theorem finds_lift {outcome : Except Fault α} (h : ThreeAddress.Finds outcome) :
    Finds (liftM outcome : Emit α) :=
  fun _ => h

theorem Finds.bind {p : Emit α} {f : α → Emit β} (h : Finds p) (hf : ∀ a, Finds (f a)) :
    Finds (p >>= f) := by
  intro n
  have hp := h n
  rw [bind_apply]
  rcases hn : p n with ⟨outcome, k⟩
  rw [hn] at hp
  cases outcome with
  | error fault => exact finds_error (hp fault rfl)
  | ok a => exact hf a k

end Emit

end

namespace Site

variable {site : Site} {uses defs : NameSet}

-- ---------------------------------------------------------------------------
-- Elements
-- ---------------------------------------------------------------------------

theorem literalValue_finds (value : Literal) (ty : Ty) : Finds (literalValue value ty) := by
  unfold literalValue
  split
  · exact finds_ok
  · split
    · exact finds_ok
    · exact finds_error rfl
  · exact finds_ok
  · exact finds_error rfl

theorem loadVariable_finds (known : site.Knows uses) {name : String} (hname : name ∈ uses) (ty : Ty) :
    Finds (site.loadVariable name ty) := by
  obtain ⟨register, hregister⟩ := known name hname
  simp only [loadVariable, hregister]
  split
  · exact finds_ok
  · exact finds_ok
  · exact finds_error rfl

theorem load_finds (known : site.Knows uses) {element : Element}
    (hreads : ∀ name ∈ element.reads, name ∈ uses) : Finds (site.load element) := by
  induction element with
  | literal value ty => exact (literalValue_finds value ty).bind fun _ => finds_ok
  | operand name ty =>
    cases ty with
    | classRef owner => exact finds_error rfl
    | _ => exact loadVariable_finds known (hreads name List.mem_cons_self) _
  | slot name index ty ih =>
    refine (loadVariable_finds known (hreads name List.mem_cons_self) _).bind fun _ => ?_
    refine (ih fun other hother => hreads other (List.mem_cons_of_mem _ hother)).bind fun _ => ?_
    split
    · exact finds_ok
    · exact finds_ok
    · exact finds_error rfl

theorem loadAll_finds (known : site.Knows uses) {elements : List Element}
    (hreads : ReadFrom uses elements) : Finds (site.loadAll elements) := by
  induction elements with
  | nil => exact finds_ok
  | cons element rest ih =>
    obtain ⟨helement, hrest⟩ := readFrom_cons.mp hreads
    exact (load_finds known helement).bind fun _ => (ih hrest).bind fun _ => finds_ok

theorem place_finds (known : site.Knows uses) (knownDefs : site.Knows defs) {dest : Element}
    (hdefs : ∀ name ty, dest = .operand name ty → ty.isClassRef = false → name ∈ defs)
    (hreads : ReadFrom uses (Statement.destOperands dest)) : Finds (site.place dest) := by
  unfold place
  split
  · exact finds_error rfl
  · exact finds_error rfl
  · next name ty notClass =>
    have hclass : ty.isClassRef = false := by
      cases ty with
      | classRef owner => exact absurd rfl (notClass owner)
      | _ => rfl
    obtain ⟨register, hregister⟩ := knownDefs name (hdefs name ty rfl hclass)
    simp only [hregister]
    split
    · exact finds_ok
    · exact finds_ok
    · exact finds_error rfl
  · next name index ty =>
    obtain ⟨hslot, -⟩ := readFrom_cons.mp hreads
    refine (loadVariable_finds known (hslot name List.mem_cons_self) _).bind fun _ => ?_
    refine (load_finds known fun other hother => hslot other (List.mem_cons_of_mem _ hother)).bind
      fun _ => ?_
    split
    · exact finds_ok
    · exact finds_ok
    · exact finds_error rfl

-- ---------------------------------------------------------------------------
-- Right-hand sides
-- ---------------------------------------------------------------------------

theorem fieldName_finds (field : Element) : Finds (fieldName field) := by
  cases field with
  | operand name ty => exact finds_ok
  | _ => exact finds_error rfl

theorem ownerOf_finds (object : Element) : Finds (site.ownerOf object) := by
  unfold ownerOf
  split
  · exact finds_ok
  · exact finds_error rfl

theorem getField_finds (known : site.Knows uses) {object field : Element} {ty : Ty}
    (hreads : ReadFrom uses [object]) : Finds (site.getField object field ty) := by
  obtain ⟨hobject, -⟩ := readFrom_cons.mp hreads
  refine (fieldName_finds field).bind fun _ => ?_
  split
  · exact finds_ok
  · exact (ownerOf_finds object).bind fun _ => (load_finds known hobject).bind fun _ => finds_ok

theorem putField_finds (known : site.Knows uses) {object field value : Element}
    (hreads : ReadFrom uses [object, value]) : Finds (site.putField object field value) := by
  obtain ⟨hobject, hrest⟩ := readFrom_cons.mp hreads
  obtain ⟨hvalue, -⟩ := readFrom_cons.mp hrest
  refine (fieldName_finds field).bind fun _ => ?_
  split
  · exact (load_finds known hvalue).bind fun _ => finds_ok
  · exact (ownerOf_finds object).bind fun _ => (load_finds known hobject).bind fun _ =>
      (load_finds known hvalue).bind fun _ => finds_ok

theorem unary_finds (known : site.Knows uses) {unary : Unary}
    (hreads : ReadFrom uses [unary.operand]) : Finds (site.unary unary) := by
  unfold Site.unary
  split
  · exact (load_finds known (readFrom_cons.mp hreads).1).bind fun _ => finds_ok
  · exact finds_error rfl

theorem arithmetic_finds (known : site.Knows uses) {binary : Binary}
    (hreads : ReadFrom uses [binary.left, binary.right]) : Finds (site.arithmetic binary) := by
  obtain ⟨hleft, hrest⟩ := readFrom_cons.mp hreads
  obtain ⟨hright, -⟩ := readFrom_cons.mp hrest
  unfold arithmetic
  split
  · exact finds_error rfl
  · exact (load_finds known hleft).bind fun _ => (load_finds known hright).bind fun _ => finds_ok

theorem compareJump_finds (known : site.Knows uses) {binary : Binary} {target : String}
    (hreads : ReadFrom uses [binary.left, binary.right]) :
    Finds (site.compareJump binary target) := by
  obtain ⟨hleft, hrest⟩ := readFrom_cons.mp hreads
  obtain ⟨hright, -⟩ := readFrom_cons.mp hrest
  unfold compareJump
  split
  · split
    · exact (load_finds known hleft).bind fun _ => finds_ok
    · split
      · exact (load_finds known hright).bind fun _ => finds_ok
      · exact (load_finds known hleft).bind fun _ => (load_finds known hright).bind fun _ => finds_ok
  · exact finds_error rfl

theorem methodName_finds (call : Call) : Finds (methodName call) := by
  unfold methodName
  split
  · exact finds_ok
  · exact finds_error rfl

theorem targetClass_finds (call : Call) : Finds (site.targetClass call) := by
  unfold targetClass
  split
  · exact finds_ok
  · exact finds_error rfl

theorem specialClass_finds (call : Call) (method : String) :
    Finds (site.specialClass call method) := by
  unfold specialClass
  split
  · exact finds_ok
  · exact targetClass_finds call

theorem newClass_finds (call : Call) : Finds (site.newClass call) := by
  have hrefused : Finds (.error (.unsupported ("creating `" ++ call.target.text ++ "`")) :
      Except Fault String) := finds_error rfl
  unfold newClass
  split
  · split
    · exact targetClass_finds call
    · exact hrefused
  · split
    · exact targetClass_finds call
    · exact hrefused
  · exact hrefused

theorem newArrayOp_finds (item : Ty) : Finds (site.newArrayOp item) := by
  unfold newArrayOp
  split
  · exact finds_ok
  · exact finds_ok
  · split
    · exact finds_ok
    · exact finds_error rfl

theorem invoke_finds (known : site.Knows uses) {dispatch : Dispatch} {owner method : String}
    {call : Call} (hreads : ReadFrom uses call.args) :
    Finds (site.invoke dispatch owner method call) :=
  (loadAll_finds known hreads).bind fun _ => finds_ok

theorem newObject_finds (known : site.Knows uses) {call : Call} (hreads : ReadFrom uses call.args) :
    Finds (site.newObject call) := by
  unfold newObject
  split
  · unfold newArray
    split
    · next length hargs =>
      rw [hargs] at hreads
      refine (load_finds known (readFrom_cons.mp hreads).1).bind fun _ => ?_
      exact (newArrayOp_finds _).bind fun _ => finds_ok
    · exact finds_error rfl
  · exact (newClass_finds call).bind fun _ => finds_ok

theorem call_finds (known : site.Knows uses) {call : Call}
    (hreads : ReadFrom uses (call.target :: call.args)) : Finds (site.call call) := by
  obtain ⟨htarget, hargs⟩ := readFrom_cons.mp hreads
  unfold Site.call
  split
  · exact (methodName_finds call).bind fun _ => (targetClass_finds call).bind fun _ =>
      (load_finds known htarget).bind fun _ => (invoke_finds known hargs).bind fun _ => finds_ok
  · exact (methodName_finds call).bind fun _ => (targetClass_finds call).bind fun _ =>
      invoke_finds known hargs
  · exact (methodName_finds call).bind fun _ => (specialClass_finds call _).bind fun _ =>
      (load_finds known htarget).bind fun _ => (invoke_finds known hargs).bind fun _ => finds_ok
  · exact newObject_finds known hargs
  · exact (load_finds known htarget).bind fun _ => finds_ok

theorem binary_finds (known : site.Knows uses) {binary : Binary}
    (hreads : ReadFrom uses [binary.left, binary.right]) : (site.binary binary).Finds := by
  unfold Site.binary
  split
  · have hfresh : Emit.fresh.Finds := fun _ => finds_ok
    exact hfresh.bind fun _ => (Emit.finds_lift (compareJump_finds known hreads)).bind fun _ =>
      Emit.finds_pure
  · exact Emit.finds_lift (arithmetic_finds known hreads)

theorem value_finds (known : site.Knows uses) {rhs : Statement} (hreads : ReadFrom uses rhs.operands) :
    (site.value rhs).Finds := by
  cases rhs with
  | element e => exact Emit.finds_lift (load_finds known (readFrom_cons.mp hreads).1)
  | call c => exact Emit.finds_lift (call_finds known hreads)
  | getField object field ty => exact Emit.finds_lift (getField_finds known hreads)
  | unary u => exact Emit.finds_lift (unary_finds known hreads)
  | binary b => exact binary_finds known hreads
  | _ => exact Emit.finds_fail rfl

-- ---------------------------------------------------------------------------
-- Statements
-- ---------------------------------------------------------------------------

theorem assign_finds (known : site.Knows uses) (knownDefs : site.Knows defs) {dest : Element}
    {rhs : Statement}
    (hdefs : ∀ name ty, dest = .operand name ty → ty.isClassRef = false → name ∈ defs)
    (hdest : ReadFrom uses (Statement.destOperands dest)) (hreads : ReadFrom uses rhs.operands) :
    (site.assign dest rhs).Finds := by
  unfold assign
  split
  · exact Emit.finds_pure
  · exact (Emit.finds_lift (place_finds known knownDefs hdefs hdest)).bind fun _ =>
      (value_finds known hreads).bind fun _ => Emit.finds_pure

theorem branchTo_finds (known : site.Knows uses) {condition : Condition} {target : String}
    (hreads : ReadFrom uses condition.operands) : (site.branchTo condition target).Finds := by
  unfold branchTo
  split
  · exact (Emit.finds_lift (load_finds known (readFrom_cons.mp hreads).1)).bind fun _ =>
      Emit.finds_pure
  · split
    · exact (Emit.finds_lift (load_finds known (readFrom_cons.mp hreads).1)).bind fun _ =>
        Emit.finds_pure
    · exact Emit.finds_fail rfl
  · split
    · exact Emit.finds_lift (compareJump_finds known hreads)
    · exact (binary_finds known hreads).bind fun _ => Emit.finds_pure

theorem ret_finds (known : site.Knows uses) {value? : Option Element} {ty : Ty}
    (hreads : ReadFrom uses value?.toList) : Finds (site.ret value? ty) := by
  unfold Site.ret
  split
  · exact finds_ok
  · exact finds_error rfl
  · exact finds_error rfl
  · exact (load_finds known (readFrom_cons.mp hreads).1).bind fun _ => finds_ok
  · exact (load_finds known (readFrom_cons.mp hreads).1).bind fun _ => finds_ok

theorem follow_finds (linked : site.method.Linked) {label : String}
    (hlabel : ∃ id, site.method.label? label = some id) : Finds (site.follow label) := by
  obtain ⟨id, hid⟩ := hlabel
  obtain ⟨last, -, hlast, -⟩ := follow_ok linked hid
  rw [hlast]
  exact finds_ok

theorem unused_finds (known : site.Knows uses) {rhs : Statement}
    (hreads : ReadFrom uses rhs.operands) :
    (do let pushed ← site.value rhs; pure (pushed ++ ops [.pop]) : Emit (List Item)).Finds :=
  (value_finds known hreads).bind fun _ => Emit.finds_pure

theorem statement_finds (linked : site.method.Linked) (known : site.Knows uses)
    (knownDefs : site.Knows defs) {statement : Statement} (hreads : ReadFrom uses statement.operands)
    (hdefs : ∀ name ∈ statement.defs, name ∈ defs)
    (hjump : ∀ label, statement.jump? = some label → ∃ id, site.method.label? label = some id) :
    (site.statement statement).Finds := by
  cases statement with
  | assign dest ty rhs =>
    refine assign_finds known knownDefs (fun name nameTy hdest hclass => ?_) ?_ ?_
    · exact hdefs name (mem_defs_of_operand hdest hclass)
    · exact fun element hmem => hreads element (List.mem_append_left _ hmem)
    · exact fun element hmem => hreads element (List.mem_append_right _ hmem)
  | call c => exact (Emit.finds_lift (call_finds known hreads)).bind fun _ => Emit.finds_pure
  | goto label =>
    exact (Emit.finds_lift (follow_finds linked (hjump label rfl))).bind fun _ => Emit.finds_pure
  | branch condition label =>
    exact (Emit.finds_lift (follow_finds linked (hjump label rfl))).bind fun _ =>
      branchTo_finds known hreads
  | ret value? ty => exact Emit.finds_lift (ret_finds known hreads)
  | putField object field value => exact Emit.finds_lift (putField_finds known hreads)
  | getField object field ty => exact unused_finds known hreads
  | unary u => exact unused_finds known hreads
  | binary b => exact unused_finds known hreads
  | element e => exact unused_finds known hreads

theorem instruction_finds (linked : site.method.Linked) (declares : site.method.Declares)
    {inst : Instruction} (hinst : inst ∈ site.method.instructions) :
    (site.statement inst.statement).Finds := by
  obtain ⟨known, knownDefs⟩ := knows_of_declares declares hinst
  exact statement_finds linked known knownDefs (readFrom_liveNode inst)
    (fun _ hname => NameSet.mem_ofList.mpr hname) fun _ => linked.label?_of_jump hinst

-- The arguments are those of the second instruction, and the variable is defined by the first.
theorem fused_finds (declares : site.method.Declares) {inst next : Instruction}
    (hinst : inst ∈ site.method.instructions) (hnext : next ∈ site.method.instructions)
    {construction : Construction} (hof : Construction.of? inst next = some construction) :
    Finds (site.construction construction) := by
  obtain ⟨⟨name, ty, hdest⟩, ⟨declared, hstatement⟩, hcall⟩ := Construction.source_of_of? hof
  obtain ⟨known, -⟩ := knows_of_declares declares hnext
  obtain ⟨-, knownDefs⟩ := knows_of_declares declares hinst
  have hreads := readFrom_liveNode next
  rw [hcall] at hreads
  refine (place_finds known knownDefs (fun other otherTy hother hclass => ?_) ?_).bind fun _ => ?_
  · refine NameSet.mem_ofList.mpr ?_
    rw [hstatement]
    exact mem_defs_of_operand hother hclass
  · rw [hdest]
    exact fun element helement => absurd helement List.not_mem_nil
  · exact (newClass_finds _).bind fun _ =>
      (invoke_finds known (readFrom_cons.mp hreads).2).bind fun _ => finds_ok

-- ---------------------------------------------------------------------------
-- Bodies
-- ---------------------------------------------------------------------------

theorem instructions_finds (linked : site.method.Linked) (declares : site.method.Declares)
    {insts : List Instruction} (hsub : ∀ inst ∈ insts, inst ∈ site.method.instructions) :
    (site.instructions insts).Finds := by
  fun_induction site.instructions insts with
  | case1 => exact Emit.finds_pure
  | case2 inst =>
    exact (instruction_finds linked declares (hsub inst List.mem_cons_self)).bind fun _ =>
      Emit.finds_pure
  | case3 inst next rest construction hfused ih =>
    obtain ⟨hinst, hmore⟩ := List.forall_mem_cons.mp hsub
    obtain ⟨hnext, hrest⟩ := List.forall_mem_cons.mp hmore
    exact (Emit.finds_lift (fused_finds declares hinst hnext hfused)).bind fun _ =>
      (ih hrest).bind fun _ => Emit.finds_pure
  | case4 inst next rest _ ih =>
    obtain ⟨hinst, hrest⟩ := List.forall_mem_cons.mp hsub
    exact (instruction_finds linked declares hinst).bind fun _ =>
      (ih hrest).bind fun _ => Emit.finds_pure

theorem close_finds (items : List Item) : Finds (site.close items) := by
  unfold close
  split
  · exact finds_ok
  · split
    · exact finds_ok
    · exact finds_error rfl

theorem applyAll_finds (frame : Frame) (items : List Item) : Finds (frame.applyAll items) := by
  induction items generalizing frame with
  | nil => exact finds_ok
  | cons item rest ih =>
    cases item with
    | label label => exact ih _
    | op op =>
      simp only [Frame.applyAll, Frame.apply]
      by_cases hfew : frame.found.depth < op.pops
      · rw [if_pos hfew]
        exact finds_error rfl
      · rw [if_neg hfew]
        exact ih _

theorem maxStack_finds (body : List Item) : Finds (maxStack body) := by
  unfold maxStack
  split
  · exact finds_ok
  · next fault hfault => exact finds_error (applyAll_finds _ _ fault hfault)

theorem listing_finds (linked : site.method.Linked) (declares : site.method.Declares) :
    site.listing.Finds := by
  have hbody : site.body.Finds :=
    (instructions_finds linked declares fun _ hinst => hinst).bind fun items =>
      Emit.finds_lift (close_finds items)
  exact hbody.bind fun body => (Emit.finds_lift (maxStack_finds body)).bind fun _ => Emit.finds_pure

end Site

/-- Every jump in the body goes to a label that stands in it. -/
def JumpsLand (body : List Item) : Prop :=
  ∀ op label, .op op ∈ body → op.target? = some label → .label label ∈ body

theorem Site.listing_jumpsLand {site : Site} {n n' : Nat} (linked : site.method.Linked)
    {lowered : MethodListing} (h : site.listing n = (.ok lowered, n')) : JumpsLand lowered.body := by
  obtain ⟨items, hitems, hclose⟩ := body_ok.mp (listing_ok h).1
  intro op label hop htarget
  have hmem : .op op ∈ items := by
    rcases close_ok hclose with ⟨-, heq⟩ | ⟨-, heq⟩
    · exact heq ▸ hop
    · rw [heq] at hop
      rcases List.mem_append.mp hop with hop | hop
      · exact hop
      · obtain rfl := List.mem_singleton.mp (mem_ops.mp hop)
        cases htarget
  have hlabel : label ∈ labelsOf items := by
    rcases hitems.target linked (fun _ hchunk => hchunk) hmem htarget with ⟨id, hid⟩ | hlabel
    · -- A label of the method stands before the chunk of the instruction that carries it.
      obtain ⟨inst, hinst, hcarried⟩ := (linked.label?_iff label id).mp hid
      refine hitems.label_mem ?_
      rw [Chunk.flatMap_labels]
      exact List.mem_flatMap.mpr ⟨inst, Method.mem_of_instruction? hinst, hcarried⟩
    · exact hlabel
  have hbody : label ∈ labelsOf lowered.body := by
    rcases close_ok hclose with ⟨-, heq⟩ | ⟨-, heq⟩
    · exact heq ▸ hlabel
    · rw [heq, labelsOf_append]
      exact List.mem_append_left _ hlabel
  exact mem_labelsOf.mp hbody

-- ---------------------------------------------------------------------------
-- Classes
-- ---------------------------------------------------------------------------

/-- A class of built methods, which may have been allocated any number of times. -/
inductive ClassUnit.Prepared : ClassUnit → Prop
  | built {unit : ClassUnit} : unit.Built → Prepared unit
  | allocated {unit : ClassUnit} (budget : Budget) (stages : List Stage) : Prepared unit →
    Prepared (unit.allocate budget stages).unit

theorem Method.Prepared.allocateFor {method : Method} (h : method.Prepared) (budget : Budget) :
    (method.allocateFor budget).1.Prepared := by
  unfold Method.allocateFor
  split
  · exact h
  · split
    · next halloc => exact .allocated h halloc
    · exact h

namespace ClassUnit

variable {unit : ClassUnit}

theorem Prepared.methods (h : unit.Prepared) : ∀ method ∈ unit.methods, method.Prepared := by
  induction h with
  | built hbuilt =>
    intro method hmethod
    obtain ⟨draft, hbuild⟩ := hbuilt method hmethod
    exact .built hbuild
  | @allocated unit budget stages _ ih =>
    unfold ClassUnit.allocate
    split
    · exact ih
    · intro method hmethod
      simp only [List.map_map, List.mem_map, Function.comp_apply] at hmethod
      obtain ⟨old, hold, rfl⟩ := hmethod
      exact (ih old hold).allocateFor budget

theorem listing_of_mem_methodListings {methods : List Method} {n : Nat}
    {outcome : Method × Except Fault MethodListing} (h : outcome ∈ unit.methodListings methods n) :
    outcome.1 ∈ methods ∧ ∃ k, (Site.listing { unit, method := outcome.1 } k).1 = outcome.2 := by
  induction methods generalizing n with
  | nil => cases h
  | cons method rest ih =>
    rcases List.mem_cons.mp h with rfl | h
    · exact ⟨List.mem_cons_self, n, rfl⟩
    · obtain ⟨hmethod, hlisting⟩ := ih h
      exact ⟨List.mem_cons_of_mem _ hmethod, hlisting⟩

theorem mem_methodListings_of_lower {failure : LoweringFailure} (h : unit.lower = .error failure)
    {entry : String × Fault} (hentry : entry ∈ failure.failures) :
    ∃ method, (method, .error entry.2) ∈ unit.methodListings unit.methods 0 := by
  simp only [lower] at h
  split at h
  · cases h
  · cases h
    obtain ⟨⟨method, outcome⟩, hmem, hfailed⟩ := List.mem_filterMap.mp hentry
    cases outcome with
    | ok lowered => cases hfailed
    | error fault =>
      cases hfailed
      exact ⟨method, hmem⟩

theorem lower_closed (prepared : unit.Prepared) :
    (∀ failure, unit.lower = .error failure →
      ∀ entry ∈ failure.failures, entry.2.isDangling = false) ∧
    (∀ method lowered, (method, .ok lowered) ∈ unit.methodListings unit.methods 0 →
      JumpsLand lowered.body) ∧
    ∀ method ∈ unit.methods, ∀ label id, method.label? label = some id →
      ∃ inst, method.instruction? id = some inst := by
  refine ⟨?_, ?_, ?_⟩
  · intro failure hlower entry hentry
    obtain ⟨method, hmem⟩ := mem_methodListings_of_lower hlower hentry
    obtain ⟨hmethod, n, hlisting⟩ := listing_of_mem_methodListings hmem
    have hprepared := prepared.methods method hmethod
    have hfinds := @Site.listing_finds { unit, method } hprepared.linked hprepared.declares n
    rw [hlisting] at hfinds
    exact hfinds entry.2 rfl
  · intro method lowered hmem
    obtain ⟨hmethod, n, hlisting⟩ := listing_of_mem_methodListings hmem
    exact @Site.listing_jumpsLand { unit, method } n _ (prepared.methods method hmethod).linked _
      (Prod.ext hlisting rfl)
  · intro method hmethod label id hlabel
    obtain ⟨inst, hinst, -⟩ := ((prepared.methods method hmethod).linked.label?_iff label id).mp hlabel
    exact ⟨inst, hinst⟩

end ClassUnit

/-- Goes round while its argument is small, by way of a jump to a jump, and makes an object at a label. -/
def mazeDraft : Draft :=
  let small : Element := .operand "small" .boolean
  let box : Element := .operand "box" (.object "Box")
  let start := ((Draft.new "walk" .void).addParam "x" .int32).push (.goto "door")
  let door := (start.label "door").push (.goto "hall")
  let hall := ((door.label "hall").push (.assign small .boolean
      (.binary { op := .lt, left := .operand "x" .int32, right := .literal (.int 1) .int32 }))).push
    (.branch (.single small) "door")
  (((hall.label "make").push (.assign box (.object "Box") (.call {
      invocation := .new, target := .ofClass "Box", method? := none, args := [],
      ret := .object "Box" }))).push
    (.call {
      invocation := .special, target := box, method? := some Draft.constructorName, args := [],
      ret := .void })).push
    (.branch (.single small) "make")

/-- Does not return what it should. -/
def deadEndDraft : Draft := Draft.new "end" .int32

def mazeMethod (draft : Draft) : Method :=
  match draft.build with
  | .ok method => method
  | .error _ => draft.unlinked

def maze : ClassUnit where
  name := "Maze"
  super? := none
  access := .pub
  isFinal := false
  imports := []
  fields := []
  methods := [mazeMethod mazeDraft, mazeMethod deadEndDraft]

/-- The labels that the bodies jump to, of those methods that can be lowered. -/
def ClassUnit.jumpTargets (unit : ClassUnit) : List (List String) :=
  ((unit.methodListings unit.methods 0).filterMap lowered?).map fun lowered =>
    lowered.body.filterMap fun
      | .op op => op.target?
      | .label _ => none

/-- One method goes through and the other fails, though not for want of a name. -/
theorem lower_closed_maze :
    maze.Built ∧
      (let unit := (maze.allocate .unconstrained []).unit
      unit.lower = .error { unit := "Maze", failures := [("end", .missingReturn)] } ∧
      Fault.missingReturn.isDangling = false ∧
      unit.jumpTargets = [["hall", "hall", "cmp0_true", "cmp0_end", "hall", "make"]] ∧
      ∃ method lowered, (method, .ok lowered) ∈ unit.methodListings unit.methods 0 ∧
        JumpsLand lowered.body) := by
  have built : maze.Built := by
    intro method hmethod
    simp only [maze, List.mem_cons, List.not_mem_nil, or_false] at hmethod
    rcases hmethod with rfl | rfl
    · exact ⟨mazeDraft, rfl⟩
    · exact ⟨deadEndDraft, rfl⟩
  have fails : (maze.allocate .unconstrained []).unit.lower
      = .error { unit := "Maze", failures := [("end", .missingReturn)] } := by decide +kernel
  have targets : (maze.allocate .unconstrained []).unit.jumpTargets
      = [["hall", "hall", "cmp0_true", "cmp0_end", "hall", "make"]] := by decide +kernel
  obtain ⟨known, lands, -⟩ :=
    ClassUnit.lower_closed (.allocated .unconstrained [] (.built built))
  refine ⟨built, fails, known _ fails _ List.mem_cons_self, targets, ?_⟩
  obtain ⟨lowered, hlowered, -⟩ := List.exists_of_mem_map (targets ▸ List.mem_cons_self)
  obtain ⟨⟨method, outcome⟩, hmem, hlisting⟩ := List.mem_filterMap.mp hlowered
  cases outcome with
  | error fault => cases hlisting
  | ok body =>
    cases hlisting
    exact ⟨method, lowered, hmem, lands method lowered hmem⟩

end ThreeAddress
