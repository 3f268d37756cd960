import ThreeAddress.Proofs.Code
import ThreeAddress.Proofs.Separation

/-!
# The registers that code touches

The analysis takes from a statement which variables it uses and which one it defines. Lowering goes
through the same statement on its own and emits instructions that read and write registers. The two
agree: `Site.Touches` says of items that every register they read belongs to a variable of one set, and
every register they write to a variable of another. One lemma for each function of `Site` carries this
from the elements up to `Site.statement` and `Site.construction`.

A variable without a register would be taken for a field and read through register 0, which is none of
its own. In a method that was built from a draft this cannot happen, for all its variables have one
(`Method.Declares`).
-/

namespace ThreeAddress

/-- The register whose value the instruction reads. -/
def StackOp.reads? : StackOp → Option Nat
  | .iload register | .aload register | .iinc register _ => some register
  | _ => none

/-- The register that the instruction writes. -/
def StackOp.writes? : StackOp → Option Nat
  | .istore register | .astore register | .iinc register _ => some register
  | _ => none

namespace Site

/-- The register, if there is one, is that of a variable in the set. -/
def Names (site : Site) (names : NameSet) (register? : Option Nat) : Prop :=
  ∀ register, register? = some register → ∃ name ∈ names, site.method.register? name = some register

/-- The registers that the items read are those of variables in `uses`, and the registers that they
write are those of variables in `defs`. -/
structure Touches (site : Site) (uses defs : NameSet) (items : List Item) : Prop where
  read : ∀ op, .op op ∈ items → site.Names uses op.reads?
  written : ∀ op, .op op ∈ items → site.Names defs op.writes?

/-- Every variable of the set has a register. -/
def Knows (site : Site) (names : NameSet) : Prop :=
  ∀ name ∈ names, ∃ register, site.method.register? name = some register

/-- The elements read no variable outside of `uses`. -/
def ReadFrom (uses : NameSet) (elements : List Element) : Prop :=
  ∀ element ∈ elements, ∀ name ∈ element.reads, name ∈ uses

theorem readFrom_cons {uses : NameSet} {element : Element} {rest : List Element} :
    ReadFrom uses (element :: rest) ↔ (∀ name ∈ element.reads, name ∈ uses) ∧ ReadFrom uses rest :=
  List.forall_mem_cons

variable {site : Site} {uses defs : NameSet} {n n' : Nat}

theorem names_none {names : NameSet} : site.Names names none :=
  fun _ h => nomatch h

theorem names_some {names : NameSet} {name : String} {register : Nat} (hname : name ∈ names)
    (hregister : site.method.register? name = some register) : site.Names names (some register) := by
  rintro _ ⟨⟩
  exact ⟨name, hname, hregister⟩

theorem touches_nil : site.Touches uses defs [] :=
  ⟨fun _ hop => absurd hop List.not_mem_nil, fun _ hop => absurd hop List.not_mem_nil⟩

theorem Touches.append {first second : List Item} (h : site.Touches uses defs first)
    (h' : site.Touches uses defs second) : site.Touches uses defs (first ++ second) := by
  constructor
  · exact fun op hop => (List.mem_append.mp hop).elim (h.read op) (h'.read op)
  · exact fun op hop => (List.mem_append.mp hop).elim (h.written op) (h'.written op)

theorem touches_op {op : StackOp} (hread : site.Names uses op.reads?)
    (hwritten : site.Names defs op.writes?) : site.Touches uses defs (ops [op]) := by
  constructor
  · intro other hother
    obtain rfl := List.mem_singleton.mp (mem_ops.mp hother)
    exact hread
  · intro other hother
    obtain rfl := List.mem_singleton.mp (mem_ops.mp hother)
    exact hwritten

/-- An instruction that names no register touches none. -/
theorem touches_of_none {op : StackOp} (h : op.register? = none) :
    site.Touches uses defs (ops [op]) := by
  have hread : op.reads? = none := by cases op <;> first | rfl | cases h
  have hwritten : op.writes? = none := by cases op <;> first | rfl | cases h
  exact touches_op (hread ▸ names_none) (hwritten ▸ names_none)

theorem Touches.snoc {items : List Item} {op : StackOp} (h : site.Touches uses defs items)
    (hop : op.register? = none) : site.Touches uses defs (items ++ ops [op]) :=
  h.append (touches_of_none hop)

-- ---------------------------------------------------------------------------
-- Elements
-- ---------------------------------------------------------------------------

theorem loadVariable_touches (known : site.Knows uses) {name : String} {ty : Ty} {items : List Item}
    (hname : name ∈ uses) (h : site.loadVariable name ty = .ok items) :
    site.Touches uses defs items := by
  obtain ⟨register, hregister⟩ := known name hname
  simp only [loadVariable, hregister] at h
  split at h <;> cases h
  · exact touches_op (names_some hname hregister) names_none
  · exact touches_op (names_some hname hregister) names_none

theorem load_touches (known : site.Knows uses) {element : Element} {items : List Item}
    (hreads : ∀ name ∈ element.reads, name ∈ uses) (h : site.load element = .ok items) :
    site.Touches uses defs items := by
  induction element generalizing items with
  | literal value ty =>
    obtain ⟨number, -, h⟩ := ThreeAddress.bind_ok.mp h
    cases h
    exact touches_of_none (plain_intConstant number).2.2.2
  | operand name ty =>
    cases ty with
    | classRef owner => cases h
    | _ => exact loadVariable_touches known (hreads name List.mem_cons_self) h
  | slot name index ty ih =>
    simp only [load, ThreeAddress.bind_ok] at h
    obtain ⟨array, harray, position, hposition, h⟩ := h
    have hboth : site.Touches uses defs (array ++ position) :=
      (loadVariable_touches known (hreads name List.mem_cons_self) harray).append
        (ih (fun other hother => hreads other (List.mem_cons_of_mem _ hother)) hposition)
    split at h <;> cases h
    · exact hboth.snoc rfl
    · exact hboth.snoc rfl

theorem loadAll_touches (known : site.Knows uses) {elements : List Element} {items : List Item}
    (hreads : ReadFrom uses elements) (h : site.loadAll elements = .ok items) :
    site.Touches uses defs items := by
  induction elements generalizing items with
  | nil =>
    cases h
    exact touches_nil
  | cons element rest ih =>
    simp only [loadAll, ThreeAddress.bind_ok] at h
    obtain ⟨first, hfirst, others, hothers, h⟩ := h
    cases h
    obtain ⟨helement, hrest⟩ := readFrom_cons.mp hreads
    exact (load_touches known helement hfirst).append (ih hrest hothers)

/-- Storing into a variable writes its register. Storing into an array reads that and the index. -/
theorem place_touches (known : site.Knows uses) (knownDefs : site.Knows defs) {dest : Element}
    {before : List Item} {store : StackOp}
    (hdefs : ∀ name ty, dest = .operand name ty → ty.isClassRef = false → name ∈ defs)
    (hreads : ReadFrom uses (Statement.destOperands dest))
    (h : site.place dest = .ok (before, store)) :
    site.Touches uses defs before ∧ site.Touches uses defs (ops [store]) := by
  unfold place at h
  split at h
  · cases h
  · cases h
  · next name ty notClass =>
    have hclass : ty.isClassRef = false := by
      cases ty with
      | classRef owner => exact absurd rfl (notClass owner)
      | _ => rfl
    have hname := hdefs name ty rfl hclass
    obtain ⟨register, hregister⟩ := knownDefs name hname
    simp only [hregister] at h
    split at h <;> cases h
    · exact ⟨touches_nil, touches_op names_none (names_some hname hregister)⟩
    · exact ⟨touches_nil, touches_op names_none (names_some hname hregister)⟩
  · next name index ty =>
    obtain ⟨hslot, -⟩ := readFrom_cons.mp hreads
    simp only [ThreeAddress.bind_ok] at h
    obtain ⟨array, harray, position, hposition, h⟩ := h
    have hboth : site.Touches uses defs (array ++ position) :=
      (loadVariable_touches known (hslot name List.mem_cons_self) harray).append
        (load_touches known (fun other hother => hslot other (List.mem_cons_of_mem _ hother)) hposition)
    split at h <;> cases h
    · exact ⟨hboth, touches_of_none rfl⟩
    · exact ⟨hboth, touches_of_none rfl⟩

-- ---------------------------------------------------------------------------
-- Right-hand sides
-- ---------------------------------------------------------------------------

theorem getField_touches (known : site.Knows uses) {object field : Element} {ty : Ty}
    {items : List Item} (hreads : ReadFrom uses [object])
    (h : site.getField object field ty = .ok items) : site.Touches uses defs items := by
  obtain ⟨hobject, -⟩ := readFrom_cons.mp hreads
  obtain ⟨name, -, h⟩ := ThreeAddress.bind_ok.mp h
  split at h
  · cases h
    exact touches_of_none rfl
  · simp only [ThreeAddress.bind_ok] at h
    obtain ⟨owner, -, target, htarget, h⟩ := h
    cases h
    exact (load_touches known hobject htarget).snoc rfl

theorem putField_touches (known : site.Knows uses) {object field value : Element} {items : List Item}
    (hreads : ReadFrom uses [object, value]) (h : site.putField object field value = .ok items) :
    site.Touches uses defs items := by
  obtain ⟨hobject, hrest⟩ := readFrom_cons.mp hreads
  obtain ⟨hvalue, -⟩ := readFrom_cons.mp hrest
  obtain ⟨name, -, h⟩ := ThreeAddress.bind_ok.mp h
  split at h
  · obtain ⟨stored, hstored, h⟩ := ThreeAddress.bind_ok.mp h
    cases h
    exact (load_touches known hvalue hstored).snoc rfl
  · simp only [ThreeAddress.bind_ok] at h
    obtain ⟨owner, -, target, htarget, stored, hstored, h⟩ := h
    cases h
    exact ((load_touches known hobject htarget).append (load_touches known hvalue hstored)).snoc rfl

theorem unary_touches (known : site.Knows uses) {unary : Unary} {items : List Item}
    (hreads : ReadFrom uses [unary.operand]) (h : site.unary unary = .ok items) :
    site.Touches uses defs items := by
  obtain ⟨hoperand, -⟩ := readFrom_cons.mp hreads
  unfold Site.unary at h
  split at h
  · obtain ⟨operand, hload, h⟩ := ThreeAddress.bind_ok.mp h
    cases h
    have hone : site.Touches uses defs (operand ++ ops [.iconst 1] ++ ops [.ixor]) :=
      ((load_touches known hoperand hload).snoc rfl).snoc rfl
    rwa [List.append_assoc] at hone
  · cases h

theorem arithmetic_touches (known : site.Knows uses) {binary : Binary} {items : List Item}
    (hreads : ReadFrom uses [binary.left, binary.right]) (h : site.arithmetic binary = .ok items) :
    site.Touches uses defs items := by
  obtain ⟨hleft, hrest⟩ := readFrom_cons.mp hreads
  obtain ⟨hright, -⟩ := readFrom_cons.mp hrest
  unfold arithmetic at h
  split at h
  · cases h
  · next op hop =>
    simp only [ThreeAddress.bind_ok] at h
    obtain ⟨left, hloadLeft, right, hloadRight, h⟩ := h
    cases h
    have hnone : op.register? = none := by
      unfold Operator.arithmeticOp? at hop
      split at hop <;> cases hop <;> rfl
    exact ((load_touches known hleft hloadLeft).append (load_touches known hright hloadRight)).snoc hnone

theorem compareJump_touches (known : site.Knows uses) {binary : Binary} {target : String}
    {items : List Item} (hreads : ReadFrom uses [binary.left, binary.right])
    (h : site.compareJump binary target = .ok items) : site.Touches uses defs items := by
  obtain ⟨hleft, hrest⟩ := readFrom_cons.mp hreads
  obtain ⟨hright, -⟩ := readFrom_cons.mp hrest
  unfold compareJump at h
  split at h
  · split at h
    · obtain ⟨left, hload, h⟩ := ThreeAddress.bind_ok.mp h
      cases h
      exact (load_touches known hleft hload).snoc rfl
    · split at h
      · obtain ⟨right, hload, h⟩ := ThreeAddress.bind_ok.mp h
        cases h
        exact (load_touches known hright hload).snoc rfl
      · simp only [ThreeAddress.bind_ok] at h
        obtain ⟨left, hloadLeft, right, hloadRight, h⟩ := h
        cases h
        exact ((load_touches known hleft hloadLeft).append (load_touches known hright hloadRight)).snoc rfl
  · cases h

theorem verdict_touches (number : Nat) : site.Touches uses defs (verdict number) := by
  have hnone : ∀ op, .op op ∈ verdict number → op.reads? = none ∧ op.writes? = none := by
    intro op hop
    simp only [verdict, List.mem_cons, Item.op.injEq, reduceCtorEq, List.not_mem_nil, or_false,
      false_or] at hop
    rcases hop with rfl | rfl | rfl <;> exact ⟨rfl, rfl⟩
  exact ⟨fun op hop => (hnone op hop).1 ▸ names_none, fun op hop => (hnone op hop).2 ▸ names_none⟩

theorem invoke_touches (known : site.Knows uses) {dispatch : Dispatch} {owner method : String}
    {call : Call} {items : List Item} (hreads : ReadFrom uses call.args)
    (h : site.invoke dispatch owner method call = .ok items) : site.Touches uses defs items := by
  obtain ⟨args, hargs, h⟩ := ThreeAddress.bind_ok.mp h
  cases h
  exact (loadAll_touches known hreads hargs).snoc rfl

theorem newObject_touches (known : site.Knows uses) {call : Call} {items : List Item}
    (hreads : ReadFrom uses call.args) (h : site.newObject call = .ok items) :
    site.Touches uses defs items := by
  unfold newObject at h
  split at h
  · unfold newArray at h
    split at h
    · next length hargs =>
      simp only [ThreeAddress.bind_ok] at h
      obtain ⟨size, hsize, op, hop, h⟩ := h
      cases h
      have hnone : op.register? = none := by
        unfold newArrayOp at hop
        split at hop
        · cases hop; rfl
        · cases hop; rfl
        · split at hop <;> cases hop
          rfl
      rw [hargs] at hreads
      exact (load_touches known (readFrom_cons.mp hreads).1 hsize).snoc hnone
    · cases h
  · obtain ⟨owner, -, h⟩ := ThreeAddress.bind_ok.mp h
    cases h
    exact touches_of_none rfl

theorem call_touches (known : site.Knows uses) {call : Call} {items : List Item}
    (hreads : ReadFrom uses (call.target :: call.args)) (h : site.call call = .ok items) :
    site.Touches uses defs items := by
  obtain ⟨htarget, hargs⟩ := readFrom_cons.mp hreads
  unfold Site.call at h
  split at h
  · simp only [ThreeAddress.bind_ok] at h
    obtain ⟨method, -, owner, -, target, hload, invoked, hinvoked, h⟩ := h
    cases h
    exact (load_touches known htarget hload).append (invoke_touches known hargs hinvoked)
  · simp only [ThreeAddress.bind_ok] at h
    obtain ⟨method, -, owner, -, h⟩ := h
    exact invoke_touches known hargs h
  · simp only [ThreeAddress.bind_ok] at h
    obtain ⟨method, -, owner, -, target, hload, invoked, hinvoked, h⟩ := h
    cases h
    exact (load_touches known htarget hload).append (invoke_touches known hargs hinvoked)
  · exact newObject_touches known hargs h
  · obtain ⟨target, hload, h⟩ := ThreeAddress.bind_ok.mp h
    cases h
    exact (load_touches known htarget hload).snoc rfl

theorem binary_touches (known : site.Knows uses) {binary : Binary} {items : List Item}
    (hreads : ReadFrom uses [binary.left, binary.right])
    (h : site.binary binary n = (.ok items, n')) : site.Touches uses defs items := by
  unfold Site.binary at h
  split at h
  · obtain ⟨-, jump, hjump, rfl⟩ := comparison_ok h
    exact (compareJump_touches known hreads hjump).append (verdict_touches n)
  · exact arithmetic_touches known hreads (Emit.lift_ok.mp h).1

theorem value_touches (known : site.Knows uses) {rhs : Statement} {items : List Item}
    (hreads : ReadFrom uses rhs.operands) (h : site.value rhs n = (.ok items, n')) :
    site.Touches uses defs items := by
  cases rhs with
  | element e => exact load_touches known (readFrom_cons.mp hreads).1 (Emit.lift_ok.mp h).1
  | call c => exact call_touches known hreads (Emit.lift_ok.mp h).1
  | getField object field ty => exact getField_touches known hreads (Emit.lift_ok.mp h).1
  | unary u => exact unary_touches known hreads (Emit.lift_ok.mp h).1
  | binary b => exact binary_touches known hreads h
  | _ => exact absurd h (by simp [value])

-- ---------------------------------------------------------------------------
-- Statements
-- ---------------------------------------------------------------------------

theorem register_of_isIntIn {register : Nat} {element : Element}
    (h : site.isIntIn register element = true) :
    ∃ name ∈ element.reads, site.method.register? name = some register := by
  unfold isIntIn at h
  split at h
  · next name => exact ⟨name, List.mem_cons_self, by simpa using h⟩
  · cases h

-- An increment reads the register of an operand, which may be another variable than the one it writes.
theorem increment_touches {dest : Element} {rhs : Statement} {register : Nat} {amount : Int32}
    (hdefs : ∀ name ty, dest = .operand name ty → ty.isClassRef = false → name ∈ defs)
    (hreads : ReadFrom uses rhs.operands)
    (h : site.increment? dest rhs = some (register, amount)) :
    site.Touches uses defs (ops [.iinc register amount]) := by
  unfold increment? at h
  split at h
  · next name binary =>
    simp only [Option.bind_eq_bind, Option.bind_eq_some_iff] at h
    obtain ⟨found, hfound, amount', hamount, hrange⟩ := h
    split at hrange
    · cases hrange
      have hsame : site.isIntIn register binary.left = true ∨
          site.isIntIn register binary.right = true := by
        unfold Binary.increment? at hamount
        split at hamount
        · split at hamount
          · next hleft => exact .inl hleft
          · split at hamount
            · next hright => exact .inr hright
            · cases hamount
        · split at hamount
          · next hleft => exact .inl hleft
          · cases hamount
        · cases hamount
      refine touches_op ?_ (names_some (hdefs name .int32 rfl rfl) hfound)
      obtain ⟨hleft, hrest⟩ := readFrom_cons.mp hreads
      obtain ⟨hright, -⟩ := readFrom_cons.mp hrest
      rcases hsame with hsame | hsame
      · obtain ⟨other, hother, hregister⟩ := register_of_isIntIn hsame
        exact names_some (hleft other hother) hregister
      · obtain ⟨other, hother, hregister⟩ := register_of_isIntIn hsame
        exact names_some (hright other hother) hregister
    · cases hrange
  · cases h

theorem assign_touches (known : site.Knows uses) (knownDefs : site.Knows defs) {dest : Element}
    {rhs : Statement} {items : List Item}
    (hdefs : ∀ name ty, dest = .operand name ty → ty.isClassRef = false → name ∈ defs)
    (hdest : ReadFrom uses (Statement.destOperands dest)) (hreads : ReadFrom uses rhs.operands)
    (h : site.assign dest rhs n = (.ok items, n')) : site.Touches uses defs items := by
  unfold assign at h
  cases hincrement : site.increment? dest rhs with
  | some increment =>
    rw [hincrement] at h
    obtain ⟨rfl, rfl⟩ := Emit.pure_ok.mp h
    exact increment_touches hdefs hreads hincrement
  | none =>
    rw [hincrement] at h
    simp only [Emit.bind_ok, Emit.lift_ok, Emit.pure_ok] at h
    obtain ⟨⟨before, store⟩, _, ⟨hplace, rfl⟩, stored, _, hvalue, rfl, rfl⟩ := h
    obtain ⟨hbefore, hstore⟩ := place_touches known knownDefs hdefs hdest hplace
    exact (hbefore.append (value_touches known hreads hvalue)).append hstore

theorem branchTo_touches (known : site.Knows uses) {condition : Condition} {target : String}
    {items : List Item} (hreads : ReadFrom uses condition.operands)
    (h : site.branchTo condition target n = (.ok items, n')) : site.Touches uses defs items := by
  unfold branchTo at h
  split at h
  · simp only [Emit.bind_ok, Emit.lift_ok, Emit.pure_ok] at h
    obtain ⟨loaded, _, ⟨hload, rfl⟩, rfl, rfl⟩ := h
    exact (load_touches known (readFrom_cons.mp hreads).1 hload).snoc rfl
  · split at h
    · simp only [Emit.bind_ok, Emit.lift_ok, Emit.pure_ok] at h
      obtain ⟨loaded, _, ⟨hload, rfl⟩, rfl, rfl⟩ := h
      exact (load_touches known (readFrom_cons.mp hreads).1 hload).snoc rfl
    · exact absurd h (by simp)
  · split at h
    · exact compareJump_touches known hreads (Emit.lift_ok.mp h).1
    · simp only [Emit.bind_ok, Emit.pure_ok] at h
      obtain ⟨loaded, _, hbinary, rfl, rfl⟩ := h
      exact (binary_touches known hreads hbinary).snoc rfl

theorem ret_touches (known : site.Knows uses) {value? : Option Element} {ty : Ty} {items : List Item}
    (hreads : ReadFrom uses value?.toList) (h : site.ret value? ty = .ok items) :
    site.Touches uses defs items := by
  unfold Site.ret at h
  split at h
  · cases h
    exact touches_of_none rfl
  · cases h
  · cases h
  · obtain ⟨loaded, hload, h⟩ := ThreeAddress.bind_ok.mp h
    cases h
    exact (load_touches known (readFrom_cons.mp hreads).1 hload).snoc rfl
  · obtain ⟨loaded, hload, h⟩ := ThreeAddress.bind_ok.mp h
    cases h
    exact (load_touches known (readFrom_cons.mp hreads).1 hload).snoc rfl

theorem unused_touches (known : site.Knows uses) {rhs : Statement} {items : List Item}
    (hreads : ReadFrom uses rhs.operands)
    (h : (do let pushed ← site.value rhs; pure (pushed ++ ops [.pop]) : Emit (List Item)) n
      = (.ok items, n')) : site.Touches uses defs items := by
  simp only [Emit.bind_ok, Emit.pure_ok] at h
  obtain ⟨pushed, _, hvalue, rfl, rfl⟩ := h
  exact (value_touches known hreads hvalue).snoc rfl

theorem mem_defs_of_operand {dest : Element} {ty : Ty} {rhs : Statement} {name : String} {nameTy : Ty}
    (hdest : dest = .operand name nameTy) (hclass : nameTy.isClassRef = false) :
    name ∈ (Statement.assign dest ty rhs).defs := by
  subst hdest
  simp [Statement.defs, Statement.def?, Element.name?, hclass]

theorem statement_touches (known : site.Knows uses) (knownDefs : site.Knows defs)
    {statement : Statement} {items : List Item} (hreads : ReadFrom uses statement.operands)
    (hdefs : ∀ name ∈ statement.defs, name ∈ defs)
    (h : site.statement statement n = (.ok items, n')) : site.Touches uses defs items := by
  cases statement with
  | assign dest ty rhs =>
    refine assign_touches known knownDefs (fun name nameTy hdest hclass => ?_) ?_ ?_ h
    · exact hdefs name (mem_defs_of_operand hdest hclass)
    · exact fun element hmem => hreads element (List.mem_append_left _ hmem)
    · exact fun element hmem => hreads element (List.mem_append_right _ hmem)
  | call c =>
    simp only [Site.statement, Emit.bind_ok, Emit.lift_ok, Emit.pure_ok] at h
    obtain ⟨called, _, ⟨hcall, rfl⟩, rfl, rfl⟩ := h
    have hcalled : site.Touches uses defs called := call_touches known hreads hcall
    split
    · exact hcalled
    · exact hcalled.snoc rfl
  | goto label =>
    simp only [Site.statement, Emit.bind_ok, Emit.lift_ok, Emit.pure_ok] at h
    obtain ⟨target, _, -, rfl, rfl⟩ := h
    exact touches_of_none rfl
  | branch condition label =>
    simp only [Site.statement, Emit.bind_ok, Emit.lift_ok] at h
    obtain ⟨target, _, -, hbranch⟩ := h
    exact branchTo_touches known hreads hbranch
  | ret value? ty => exact ret_touches known hreads (Emit.lift_ok.mp h).1
  | putField object field value => exact putField_touches known hreads (Emit.lift_ok.mp h).1
  | getField object field ty => exact unused_touches known hreads h
  | unary u => exact unused_touches known hreads h
  | binary b => exact unused_touches known hreads h
  | element e => exact unused_touches known hreads h

theorem construction_touches (known : site.Knows uses) (knownDefs : site.Knows defs)
    {construction : Construction} {items : List Item}
    (hdefs : ∀ name ty, construction.dest = .operand name ty → ty.isClassRef = false → name ∈ defs)
    (hdest : ReadFrom uses (Statement.destOperands construction.dest))
    (hreads : ReadFrom uses construction.init.args)
    (h : site.construction construction = .ok items) : site.Touches uses defs items := by
  unfold Site.construction at h
  simp only [ThreeAddress.bind_ok] at h
  obtain ⟨⟨before, store⟩, hplace, owner, -, invoked, hinvoked, h⟩ := h
  cases h
  obtain ⟨hbefore, hstore⟩ := place_touches known knownDefs hdefs hdest hplace
  have hnew : site.Touches uses defs (before ++ ops [.new owner] ++ ops [.dup]) :=
    (hbefore.snoc rfl).snoc rfl
  rw [List.append_assoc, ← ops_append] at hnew
  exact (hnew.append (invoke_touches known hreads hinvoked)).append hstore

end Site

namespace Site

variable {site : Site}

theorem readFrom_liveNode (inst : Instruction) :
    ReadFrom inst.liveNode.uses inst.statement.operands :=
  fun element helement _ hname =>
    NameSet.mem_ofList.mpr (List.mem_flatMap.mpr ⟨element, helement, hname⟩)

theorem ReadFrom.mono {uses uses' : NameSet} {elements : List Element} (h : ReadFrom uses elements)
    (hsubset : uses ⊆ uses') : ReadFrom uses' elements :=
  fun element helement name hname => hsubset name (h element helement name hname)

theorem knows_union {names names' : NameSet} (h : site.Knows names) (h' : site.Knows names') :
    site.Knows (names ∪ names') :=
  fun name hname => (NameSet.mem_union.mp hname).elim (h name) (h' name)

theorem knows_of_declares (declares : site.method.Declares) {inst : Instruction}
    (hinst : inst ∈ site.method.instructions) :
    site.Knows inst.liveNode.uses ∧ site.Knows inst.liveNode.defs := by
  constructor
  · intro name hname
    exact Method.exists_register? (declares inst hinst name (.inr (NameSet.mem_ofList.mp hname)))
  · intro name hname
    exact Method.exists_register? (declares inst hinst name (.inl (NameSet.mem_ofList.mp hname)))

theorem fused_touches (declares : site.method.Declares) {inst next : Instruction}
    (hinst : inst ∈ site.method.instructions) (hnext : next ∈ site.method.instructions)
    {construction : Construction} {items : List Item}
    (hof : Construction.of? inst next = some construction)
    (h : site.construction construction = .ok items) :
    site.Touches (inst.liveNode.uses ∪ next.liveNode.uses)
      (inst.liveNode.defs ∪ next.liveNode.defs) items := by
  obtain ⟨⟨name, ty, hdest⟩, ⟨declared, hstatement⟩, hcall⟩ := Construction.source_of_of? hof
  obtain ⟨hinstUses, hinstDefs⟩ := knows_of_declares declares hinst
  obtain ⟨hnextUses, hnextDefs⟩ := knows_of_declares declares hnext
  refine construction_touches (knows_union hinstUses hnextUses) (knows_union hinstDefs hnextDefs)
    ?_ ?_ ?_ h
  · intro other otherTy hother hclass
    refine NameSet.mem_union.mpr (.inl (NameSet.mem_ofList.mpr ?_))
    rw [hstatement]
    exact mem_defs_of_operand hother hclass
  · rw [hdest]
    exact fun element helement => absurd helement List.not_mem_nil
  · have hreads := readFrom_liveNode next
    rw [hcall] at hreads
    refine (readFrom_cons.mp hreads).2.mono fun other hother => ?_
    exact NameSet.mem_union.mpr (.inr hother)

end Site

theorem lowering_touches {draft : Draft} {built : Method} (h : draft.build = .ok built)
    (registers : String → Nat) {site : Site} (hsite : site.method = built.withRegisters registers) :
    (∀ inst ∈ built.instructions, ∀ n n' items,
      site.statement inst.statement n = (.ok items, n') →
      site.Touches inst.liveNode.uses inst.liveNode.defs items) ∧
    ∀ inst ∈ built.instructions, ∀ next ∈ built.instructions, ∀ construction items,
      Construction.of? inst next = some construction → site.construction construction = .ok items →
      site.Touches (inst.liveNode.uses ∪ next.liveNode.uses)
        (inst.liveNode.defs ∪ next.liveNode.defs) items := by
  have declares : site.method.Declares := by
    rw [hsite]
    exact (Draft.declares_of_build h).mapVars _
  have hinstructions : site.method.instructions = built.instructions := by
    rw [hsite]
    rfl
  rw [← hinstructions]
  refine ⟨?_, fun inst hinst next hnext construction items => Site.fused_touches declares hinst hnext⟩
  intro inst hinst n n' items hitems
  obtain ⟨knownUses, knownDefs⟩ := Site.knows_of_declares declares hinst
  exact Site.statement_touches knownUses knownDefs (Site.readFrom_liveNode inst)
    (fun name hname => NameSet.mem_ofList.mpr hname) hitems

/-- Passes one more than `y` on to a new object. -/
def boxing : Draft :=
  let x : Element := .operand "x" .int32
  let box : Element := .operand "box" (.object "Box")
  let one : Element := .literal (.int 1) .int32
  let start := (Draft.new "wrap" .void).addParam "y" .int32
  let more := start.push
    (.assign x .int32 (.binary { op := .add, left := .operand "y" .int32, right := one }))
  (more.push (.assign box (.object "Box") (.call {
      invocation := .new, target := .ofClass "Box", method? := none, args := [],
      ret := .object "Box" }))).push
    (.call {
      invocation := .special, target := box, method? := some Draft.constructorName, args := [x],
      ret := .void })

def boxingMethod : Method :=
  match boxing.build with
  | .ok method => method
  | .error _ => boxing.unlinked

/-- Here `x` and `y` are in one register, so that the addition becomes an increment. -/
def boxingSite : Site where
  unit := { name := "Box", super? := none, access := .pub, isFinal := false, imports := [],
            fields := [], methods := [boxingMethod] }
  method := boxingMethod.withRegisters fun name => if name = "box" then 5 else 3

theorem lowering_touches_boxing : boxing.build = .ok boxingMethod ∧
    ∃ more create init construction made,
      boxingMethod.instructions = [more, create, init] ∧
      boxingSite.statement more.statement 0 = (.ok (ops [.iinc 3 1]), 0) ∧
      boxingSite.Touches (.ofList ["y"]) (.ofList ["x"]) (ops [.iinc 3 1]) ∧
      Construction.of? create init = some construction ∧
      boxingSite.construction construction = .ok made ∧ .op (.iload 3) ∈ made ∧
      .op (.astore 5) ∈ made ∧ boxingSite.Touches (.ofList ["x", "box"]) (.ofList ["box"]) made := by
  have built : boxing.build = .ok boxingMethod := rfl
  obtain ⟨alone, fused⟩ := @lowering_touches boxing boxingMethod built _ boxingSite rfl
  refine ⟨built, _, _, _, _, _, rfl, rfl, ?_, rfl, rfl, by decide, by decide, ?_⟩
  · exact alone _ List.mem_cons_self 0 0 _ rfl
  · exact fused _ (List.mem_cons_of_mem _ List.mem_cons_self) _
      (List.mem_cons_of_mem _ (List.mem_cons_of_mem _ List.mem_cons_self)) _ _ rfl rfl

end ThreeAddress
