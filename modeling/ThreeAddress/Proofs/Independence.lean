import ThreeAddress.Proofs.Relabel
import ThreeAddress.Proofs.Separation
import ThreeAddress.Proofs.UniqueLabels

/-!
# Methods are lowered independently

Two things could make a method depend on the others of its class: that lowering looks at them, and the
counter that runs through all of them. It does not look at them (`Site.listing_beside`). Two runs that
begin with different numbers are compared by `Emit.Moved`: they fail alike, or the second one gives the
items of the first with the numbers shifted. One lemma for each function of `Site` that draws numbers
carries this up to `Site.listing_shifted`. `ClassUnit.lower_independent` is the main statement.
-/

namespace ThreeAddress

-- ---------------------------------------------------------------------------
-- Other methods
-- ---------------------------------------------------------------------------

/-- The same site in a class with other methods. -/
def Site.beside (site : Site) (methods : List Method) : Site :=
  { site with unit := { site.unit with methods } }

namespace Site

variable {site : Site} (methods : List Method)

-- All that lowering asks of a class is its name, its imports, its superclass and its fields.

@[simp] theorem method_beside : (site.beside methods).method = site.method := rfl

@[simp] theorem name_beside : (site.beside methods).unit.name = site.unit.name := rfl

@[simp] theorem resolve_beside (name : String) :
    (site.beside methods).unit.resolve name = site.unit.resolve name := rfl

@[simp] theorem superName_beside : (site.beside methods).unit.superName = site.unit.superName := rfl

@[simp] theorem classOf?_beside (ty : Ty) :
    (site.beside methods).unit.classOf? ty = site.unit.classOf? ty := by
  cases ty <;> rfl

@[simp] theorem descriptor_beside (ty : Ty) :
    (site.beside methods).unit.descriptor ty = site.unit.descriptor ty := by
  induction ty with
  | array item ih => simp [ClassUnit.descriptor, ih]
  | _ => rfl

@[simp] theorem implicitField_beside (name : String) :
    (site.beside methods).implicitField name = site.implicitField name := rfl

@[simp] theorem fieldRef_beside (field : Field) :
    (site.beside methods).fieldRef field = site.fieldRef field := by
  simp [fieldRef]

@[simp] theorem loadVariable_beside (name : String) (ty : Ty) :
    (site.beside methods).loadVariable name ty = site.loadVariable name ty := by
  simp [loadVariable]

@[simp] theorem load_beside (element : Element) :
    (site.beside methods).load element = site.load element := by
  induction element with
  | literal value ty => rfl
  | operand name ty => cases ty <;> simp [load]
  | slot name index ty ih => simp [load, ih]

@[simp] theorem loadAll_beside (elements : List Element) :
    (site.beside methods).loadAll elements = site.loadAll elements := by
  induction elements with
  | nil => rfl
  | cons element rest ih => simp [loadAll, ih]

@[simp] theorem place_beside (dest : Element) : (site.beside methods).place dest = site.place dest := by
  cases dest with
  | literal value ty => rfl
  | operand name ty =>
    cases ty <;> simp [place]
  | slot name index ty => simp [place]

@[simp] theorem invoke_beside (dispatch : Dispatch) (owner method : String) (call : Call) :
    (site.beside methods).invoke dispatch owner method call = site.invoke dispatch owner method call := by
  simp [invoke]

@[simp] theorem targetClass_beside (call : Call) :
    (site.beside methods).targetClass call = site.targetClass call := by
  simp [targetClass]

@[simp] theorem specialClass_beside (call : Call) (method : String) :
    (site.beside methods).specialClass call method = site.specialClass call method := by
  unfold specialClass
  rw [targetClass_beside]
  rfl

@[simp] theorem newClass_beside (call : Call) :
    (site.beside methods).newClass call = site.newClass call := by
  simp [newClass]

@[simp] theorem newObject_beside (call : Call) :
    (site.beside methods).newObject call = site.newObject call := by
  simp [newObject, newArray, newArrayOp]

@[simp] theorem call_beside (call : Call) : (site.beside methods).call call = site.call call := by
  simp [Site.call]

@[simp] theorem compareJump_beside (binary : Binary) (target : String) :
    (site.beside methods).compareJump binary target = site.compareJump binary target := by
  simp [compareJump]

@[simp] theorem followWithin_beside (fuel : Nat) (seen : List String) (label : String) :
    (site.beside methods).followWithin fuel seen label = site.followWithin fuel seen label := by
  induction fuel generalizing seen label with
  | zero => rfl
  | succ fuel ih => simp [followWithin, ih]

@[simp] theorem value_beside (rhs : Statement) : (site.beside methods).value rhs = site.value rhs := by
  cases rhs <;> simp [Site.value, Site.binary, comparison, arithmetic, Site.unary, getField, ownerOf]

@[simp] theorem statement_beside (statement : Statement) :
    (site.beside methods).statement statement = site.statement statement := by
  have hincrement (dest : Element) (rhs : Statement) :
      (site.beside methods).increment? dest rhs = site.increment? dest rhs := rfl
  cases statement <;>
    simp [Site.statement, assign, branchTo, ret, putField, ownerOf, follow, Site.binary, comparison,
      arithmetic, hincrement]

@[simp] theorem construction_beside (construction : Construction) :
    (site.beside methods).construction construction = site.construction construction := by
  simp [Site.construction]

@[simp] theorem instructions_beside (insts : List Instruction) :
    (site.beside methods).instructions insts = site.instructions insts := by
  fun_induction Chunk.ofInstructions insts with
  | case1 => rfl
  | case2 inst => simp [Site.instructions]
  | case3 inst next rest construction hfused ih => simp [Site.instructions, hfused, ih]
  | case4 inst next rest hsingle ih => simp [Site.instructions, hsingle, ih]

theorem listing_beside : (site.beside methods).listing = site.listing := by
  have hclose (items : List Item) : (site.beside methods).close items = site.close items := rfl
  simp [listing, body, hclose, ClassUnit.methodDescriptor]

end Site

-- ---------------------------------------------------------------------------
-- Two runs
-- ---------------------------------------------------------------------------

namespace Emit

variable {α β α' β' : Type} {R : α → β → Prop} {S : α' → β' → Prop} {count : Nat}

/-- The second computation, begun `count` numbers further on, goes like the first one, up to `R`. -/
def Moved (count : Nat) (R : α → β → Prop) (p : Emit α) (q : Emit β) : Prop :=
  ∀ n, Concur R (p n).1 (q (n + count)).1 ∧ (q (n + count)).2 = (p n).2 + count

theorem moved_pure {a : α} {b : β} (h : R a b) : Moved count R (pure a) (pure b) :=
  fun _ => ⟨h, rfl⟩

theorem moved_fail (fault : Fault) : Moved count R (fail fault) (fail fault) :=
  fun _ => ⟨rfl, rfl⟩

theorem moved_lift {x : Except Fault α} {y : Except Fault β} (h : Concur R x y) :
    Moved count R (liftM x) (liftM y) :=
  fun _ => ⟨h, rfl⟩

theorem moved_fresh : Moved count (fun number number' => number' = number + count) fresh fresh :=
  fun n => ⟨rfl, Nat.add_right_comm n count 1⟩

theorem Moved.bind {p : Emit α} {q : Emit β} {f : α → Emit α'} {g : β → Emit β'}
    (h : Moved count R p q) (hf : ∀ a b, R a b → Moved count S (f a) (g b)) :
    Moved count S (p >>= f) (q >>= g) := by
  intro n
  have hn := h n
  rw [bind_apply, bind_apply]
  generalize p n = outcome at hn
  generalize q (n + count) = outcome' at hn
  obtain ⟨x, k⟩ := outcome
  obtain ⟨y, k'⟩ := outcome'
  obtain ⟨hconcur, rfl⟩ := hn
  cases x <;> cases y
  · exact ⟨hconcur, rfl⟩
  · exact hconcur.elim
  · exact hconcur.elim
  · exact hf _ _ hconcur k

/-- What is found without drawing a number is found in both runs. -/
theorem moved_lift_bind {x : Except Fault α} {f : α → Emit α'} {g : α → Emit β'}
    (h : ∀ a, x = .ok a → Moved count S (f a) (g a)) :
    Moved count S (liftM x >>= f) (liftM x >>= g) := by
  have hsame : Concur (fun a b => x = .ok a ∧ a = b) x x := concur_self fun a ha => ⟨ha, rfl⟩
  refine (moved_lift hsame).bind ?_
  rintro a _ ⟨ha, rfl⟩
  exact h a ha

/-- Begun `count` numbers further on, the computation gives items for numbers shifted by that. -/
def Shifted (count : Nat) (p : Emit (List Item)) : Prop := Moved count (Renamed (shiftLabel count)) p p

end Emit

namespace Site

variable {site : Site} {count : Nat}

theorem Pushes.renamed {items : List Item} {below : Nat} (h : site.Pushes items below) :
    Renamed (shiftLabel count) items items :=
  renamed_of_fixed (shiftLabel_injective count) h.fixed

theorem renamed_op {op : StackOp} (h : op.target? = none) :
    Renamed (shiftLabel count) (ops [op]) (ops [op]) := by
  refine renamed_of_fixed (shiftLabel_injective count) fun item hitem => ?_
  obtain rfl := List.mem_singleton.mp hitem
  exact congrArg Item.op (StackOp.relabel_of_none h)

theorem shifted_of_pushes {x : Except Fault (List Item)}
    (h : ∀ items, x = .ok items → ∃ below, site.Pushes items below) : Emit.Shifted count (liftM x) := by
  refine Emit.moved_lift (concur_self fun items hitems => ?_)
  obtain ⟨below, hpushes⟩ := h items hitems
  exact hpushes.renamed

theorem compareJump_concur (site : Site) {f : String → String} (inj : Function.Injective f)
    (binary : Binary) (target : String) :
    Concur (Renamed f) (site.compareJump binary target) (site.compareJump binary (f target)) := by
  have hload (element : Element) :
      Concur (fun items items' => site.Pushes items 1 ∧ items = items') (site.load element)
        (site.load element) :=
    concur_self fun _ hitems => ⟨load_pushes hitems, rfl⟩
  unfold compareJump
  split
  · split
    · refine (hload _).bind ?_
      rintro left _ - ⟨hleft, rfl⟩
      exact hleft.renamed_snoc inj
    · split
      · refine (hload _).bind ?_
        rintro right _ - ⟨hright, rfl⟩
        exact hright.renamed_snoc inj
      · refine (hload _).bind ?_
        rintro left _ - ⟨hleft, rfl⟩
        refine (hload _).bind ?_
        rintro right _ - ⟨hright, rfl⟩
        exact (hleft.append hright).renamed_snoc inj
  · exact rfl

theorem verdict_renamed (number : Nat) :
    Renamed (shiftLabel count) (verdict number) (verdict (number + count)) := by
  have inj := shiftLabel_injective count
  refine ⟨by simp [verdict, Item.relabel, StackOp.relabel], ?_⟩
  -- None of the instructions takes anything.
  have hfails := (steady_op inj (.inl rfl) : Steady _ [.op (.iconst 0)]).append
    (steady_op inj (.inl rfl) : Steady _ [.op (.goto (endLabel number))])
  have hholds := (steady_label inj (holdsLabel number)).append
    (steady_op inj (.inl rfl) : Steady _ [.op (.iconst 1)])
  exact (hfails.append hholds).append (steady_label inj (endLabel number))

theorem comparison_shifted (binary : Binary) : Emit.Shifted count (site.comparison binary) := by
  refine Emit.moved_fresh.bind ?_
  rintro number _ rfl
  have hjump := compareJump_concur site (shiftLabel_injective count) binary (holdsLabel number)
  rw [shiftLabel_holdsLabel] at hjump
  exact (Emit.moved_lift hjump).bind fun _ _ hrenamed =>
    Emit.moved_pure (hrenamed.append (verdict_renamed number))

theorem binary_shifted (binary : Binary) : Emit.Shifted count (site.binary binary) := by
  unfold Site.binary
  split
  · exact comparison_shifted binary
  · exact shifted_of_pushes fun _ hitems => ⟨1, arithmetic_pushes hitems⟩

theorem value_shifted (rhs : Statement) : Emit.Shifted count (site.value rhs) := by
  cases rhs with
  | element e => exact shifted_of_pushes fun _ hitems => ⟨1, load_pushes hitems⟩
  | call c => exact shifted_of_pushes fun _ hitems => ⟨_, call_pushes hitems⟩
  | getField object field ty => exact shifted_of_pushes fun _ hitems => ⟨1, getField_pushes hitems⟩
  | unary u => exact shifted_of_pushes fun _ hitems => ⟨1, unary_pushes hitems⟩
  | binary b => exact binary_shifted b
  | _ => exact Emit.moved_fail _

theorem assign_shifted (dest : Element) (rhs : Statement) : Emit.Shifted count (site.assign dest rhs) := by
  unfold assign
  cases hincrement : site.increment? dest rhs with
  | some increment => exact Emit.moved_pure (pushes_iinc hincrement).renamed
  | none =>
    refine Emit.moved_lift_bind fun placed hplace => ?_
    obtain ⟨below, hbefore, plain, -⟩ := place_pushes hplace
    exact (value_shifted rhs).bind fun _ _ hvalue =>
      Emit.moved_pure ((hbefore.renamed.append hvalue).append (renamed_op plain.1))

/-- A branch to a label that is not shifted. -/
theorem branchTo_shifted (condition : Condition) {target : String}
    (htarget : shiftLabel count target = target) : Emit.Shifted count (site.branchTo condition target) := by
  have inj := shiftLabel_injective count
  have hjump {loaded : List Item} (comparison : Comparison) (hloaded : site.Pushes loaded 1) :
      Renamed (shiftLabel count) (loaded ++ ops [.ifZero comparison target])
        (loaded ++ ops [.ifZero comparison target]) := by
    have hrenamed : Renamed (shiftLabel count) (loaded ++ ops [.ifZero comparison target]) _ :=
      Pushes.renamed_snoc inj hloaded
    rwa [StackOp.relabel, htarget] at hrenamed
  unfold branchTo
  split
  · exact Emit.moved_lift_bind fun _ hload => Emit.moved_pure (hjump _ (load_pushes hload))
  · split
    · exact Emit.moved_lift_bind fun _ hload => Emit.moved_pure (hjump _ (load_pushes hload))
    · exact Emit.moved_fail _
  · next binary =>
    split
    · have hcompare := compareJump_concur site inj binary target
      rw [htarget] at hcompare
      exact Emit.moved_lift hcompare
    · next notComparison =>
      simp only [Site.binary, notComparison]
      exact Emit.moved_lift_bind fun _ hload => Emit.moved_pure (hjump _ (arithmetic_pushes hload))

/-- Following a label of the method leads to one, and those are not shifted. -/
theorem shiftLabel_of_follow (linked : site.method.Linked) (apart : site.method.LabelsApart)
    {label target : String} (hlabel : ∃ id, site.method.label? label = some id)
    (h : site.follow label = .ok target) : shiftLabel count target = target := by
  obtain ⟨id, hid⟩ := hlabel
  obtain ⟨last, lastId, hlast, hlastId, -⟩ := follow_ok linked hid
  cases hlast.symm.trans h
  exact shiftLabel_of_not_ownLabel count (apart.of_label? linked hlastId)

theorem unused_shifted (rhs : Statement) :
    Emit.Shifted count (do let pushed ← site.value rhs; pure (pushed ++ ops [.pop])) :=
  (value_shifted rhs).bind fun _ _ hvalue => Emit.moved_pure (hvalue.append (renamed_op rfl))

theorem statement_shifted (linked : site.method.Linked) (apart : site.method.LabelsApart)
    {statement : Statement}
    (hjump : ∀ label, statement.jump? = some label → ∃ id, site.method.label? label = some id) :
    Emit.Shifted count (site.statement statement) := by
  cases statement with
  | assign dest ty rhs => exact assign_shifted dest rhs
  | call c =>
    refine Emit.moved_lift_bind fun called hcall => Emit.moved_pure ?_
    have hcalled : Renamed (shiftLabel count) called called := (call_pushes hcall).renamed
    split
    · exact hcalled
    · exact hcalled.append (renamed_op rfl)
  | goto label =>
    refine Emit.moved_lift_bind fun target hfollow => Emit.moved_pure ?_
    have htarget : shiftLabel count target = target :=
      shiftLabel_of_follow linked apart (hjump label rfl) hfollow
    refine renamed_of_fixed (shiftLabel_injective count) ?_
    simp [ops, Item.relabel, StackOp.relabel, htarget]
  | branch condition label =>
    refine Emit.moved_lift_bind fun target hfollow => ?_
    exact branchTo_shifted condition (shiftLabel_of_follow linked apart (hjump label rfl) hfollow)
  | ret value? ty =>
    refine Emit.moved_lift (concur_self fun items hret => ?_)
    obtain ⟨loaded, op, rfl, hloaded, htarget, -⟩ := ret_returns hret
    exact hloaded.renamed.append (renamed_op htarget)
  | putField object field value => exact shifted_of_pushes fun _ hitems => ⟨0, putField_pushes hitems⟩
  | getField object field ty => exact unused_shifted _
  | unary u => exact unused_shifted _
  | binary b => exact unused_shifted _
  | element e => exact unused_shifted _

theorem invoke_renamed {dispatch : Dispatch} {owner method : String} {call : Call} {items : List Item}
    (h : site.invoke dispatch owner method call = .ok items) :
    Renamed (shiftLabel count) items items := by
  obtain ⟨args, hargs, h⟩ := ThreeAddress.bind_ok.mp h
  cases h
  exact (loadAll_pushes hargs).renamed.append (renamed_op rfl)

theorem construction_shifted (construction : Construction) :
    Emit.Shifted count (liftM (site.construction construction)) := by
  refine Emit.moved_lift (concur_self fun items h => ?_)
  unfold Site.construction at h
  simp only [ThreeAddress.bind_ok] at h
  obtain ⟨⟨before, store⟩, hplace, owner, -, invoked, hinvoked, h⟩ := h
  cases h
  obtain ⟨below, hbefore, plain, -⟩ := place_pushes hplace
  have hcreate : Renamed (shiftLabel count) (ops [.new owner, .dup]) (ops [.new owner, .dup]) :=
    (renamed_op rfl : Renamed _ (ops [.new owner]) _).append (renamed_op rfl)
  have hconstruct := (hbefore.renamed.append hcreate).append (invoke_renamed hinvoked)
  exact hconstruct.append (renamed_op plain.1)

theorem labelItems_renamed (apart : site.method.LabelsApart) {inst : Instruction}
    (hinst : inst ∈ site.method.instructions) :
    Renamed (shiftLabel count) (labelItems inst) (labelItems inst) := by
  refine renamed_of_fixed (shiftLabel_injective count) fun item hitem => ?_
  obtain ⟨label, hlabel, rfl⟩ := List.mem_map.mp hitem
  exact congrArg Item.label (shiftLabel_of_not_ownLabel count (apart inst hinst label hlabel))

theorem instructions_shifted (linked : site.method.Linked) (apart : site.method.LabelsApart)
    {insts : List Instruction} (hsub : ∀ inst ∈ insts, inst ∈ site.method.instructions) :
    Emit.Shifted count (site.instructions insts) := by
  have hstatement {inst : Instruction} (hinst : inst ∈ site.method.instructions) :
      Emit.Shifted count (site.statement inst.statement) :=
    statement_shifted linked apart fun _ => linked.label?_of_jump hinst
  fun_induction Chunk.ofInstructions insts with
  | case1 => exact Emit.moved_pure (renamed_of_fixed (shiftLabel_injective count) (by simp))
  | case2 inst =>
    have hinst := hsub inst List.mem_cons_self
    exact (hstatement hinst).bind fun _ _ hitems =>
      Emit.moved_pure ((labelItems_renamed apart hinst).append hitems)
  | case3 inst next rest construction hfused ih =>
    have hinst := hsub inst List.mem_cons_self
    have hrest := ih fun other hother => hsub other (List.mem_cons_of_mem _ (List.mem_cons_of_mem _ hother))
    simp only [Site.instructions, hfused]
    refine (construction_shifted construction).bind fun _ _ hitems => ?_
    exact hrest.bind fun _ _ hothers =>
      Emit.moved_pure (((labelItems_renamed apart hinst).append hitems).append hothers)
  | case4 inst next rest hsingle ih =>
    have hinst := hsub inst List.mem_cons_self
    have hrest := ih fun other hother => hsub other (List.mem_cons_of_mem _ hother)
    simp only [Site.instructions, hsingle]
    refine (hstatement hinst).bind fun _ _ hitems => ?_
    exact hrest.bind fun _ _ hothers =>
      Emit.moved_pure (((labelItems_renamed apart hinst).append hitems).append hothers)

theorem fallsThrough_relabel (f : String → String) (items : List Item) :
    fallsThrough (items.map (Item.relabel f)) = fallsThrough items := by
  simp only [fallsThrough, List.getLast?_map]
  cases items.getLast? with
  | none => rfl
  | some item =>
    cases item with
    | label label => rfl
    | op op => simp [Item.relabel]

theorem close_concur {items items' : List Item} (h : Renamed (shiftLabel count) items items') :
    Concur (Renamed (shiftLabel count)) (site.close items) (site.close items') := by
  unfold close
  rw [h.eq, fallsThrough_relabel, ← h.eq]
  split
  · exact h
  · split
    · exact h.append (renamed_op rfl)
    · exact rfl

/-- From `count` numbers further on, a method gets the same code with the numbers shifted. -/
theorem listing_shifted (linked : site.method.Linked) (apart : site.method.LabelsApart) :
    Emit.Moved count (fun lowered lowered' => lowered' = lowered.relabel (shiftLabel count))
      site.listing site.listing := by
  have hbody : Emit.Shifted count site.body :=
    (instructions_shifted linked apart fun _ h => h).bind fun _ _ hitems =>
      Emit.moved_lift (close_concur hitems)
  refine hbody.bind fun body body' hrenamed => ?_
  rw [hrenamed.maxStack_eq]
  refine Emit.moved_lift_bind fun limit _ => Emit.moved_pure ?_
  rw [hrenamed.eq]
  rfl

end Site

-- ---------------------------------------------------------------------------
-- Classes
-- ---------------------------------------------------------------------------

namespace ClassUnit

variable {unit : ClassUnit} {method : Method} {n : Nat}

/-- The same class with one method alone. -/
def only (unit : ClassUnit) (method : Method) : ClassUnit := { unit with methods := [method] }

/-- The methods that cannot be lowered, with the reason. -/
def failures (unit : ClassUnit) : List (String × Fault) :=
  match unit.lower with
  | .ok _ => []
  | .error failure => failure.failures

theorem failures_eq (unit : ClassUnit) :
    unit.failures = (unit.methodListings unit.methods 0).filterMap failed? := by
  simp only [failures, lower]
  cases (unit.methodListings unit.methods 0).filterMap failed? <;> rfl

theorem isOk_lower_iff : unit.lower.isOk = true ↔ unit.failures = [] := by
  rw [failures_eq, lower]
  split
  · next hnone => exact iff_of_true rfl hnone
  · next hsome => exact iff_of_false Bool.false_ne_true hsome

/-- Every method was built from a draft, and its variables may be in any registers since. -/
def Arranged (unit : ClassUnit) : Prop :=
  ∀ method ∈ unit.methods, ∃ (draft : Draft) (built : Method) (registers : String → Nat),
    draft.build = .ok built ∧ method = built.withRegisters registers

theorem Arranged.linked (h : unit.Arranged) : ∀ method ∈ unit.methods, method.Linked := by
  intro method hmethod
  obtain ⟨draft, built, registers, hbuild, rfl⟩ := h method hmethod
  exact (Draft.linked_of_build hbuild).withVars _

/-- What becomes of a method that is alone in its class. -/
def codeAlone (unit : ClassUnit) (method : Method) : Except Fault MethodListing :=
  (Site.listing { unit := unit.only method, method } 0).1

theorem codeAlone_concur (linked : method.Linked) (apart : method.LabelsApart) (n : Nat) :
    Concur (fun code lowered => lowered = code.relabel (shiftLabel n)) (unit.codeAlone method)
      (Site.listing { unit, method } n).1 := by
  have hsite : { unit := unit.only method, method : Site } = Site.beside { unit, method } [method] := rfl
  have hshifted := (@Site.listing_shifted { unit, method } n linked apart 0).1
  rw [Nat.zero_add] at hshifted
  rw [codeAlone, hsite, Site.listing_beside]
  exact hshifted

theorem fieldListing_only (field : Field) :
    (unit.only method).fieldListing field = unit.fieldListing field := by
  have hdescriptor : (unit.only method).descriptor field.ty = unit.descriptor field.ty :=
    @Site.descriptor_beside { unit, method } [method] field.ty
  rw [fieldListing, hdescriptor]
  rfl

theorem lower_only (unit : ClassUnit) (method : Method) :
    (unit.only method).lower = match unit.codeAlone method with
      | .ok code => .ok {
          name := unit.name
          access := unit.access.flag
          isFinal := unit.isFinal
          superName := unit.superName
          fields := unit.fields.map unit.fieldListing
          methods := [code] }
      | .error fault => .error { unit := unit.name, failures := [(method.name, fault)] } := by
  have hmethods : (unit.only method).methodListings (unit.only method).methods 0
      = [(method, unit.codeAlone method)] := rfl
  simp only [lower, hmethods]
  cases unit.codeAlone method with
  | error fault => rfl
  | ok code =>
    have hfields : (unit.only method).fields.map (unit.only method).fieldListing
        = unit.fields.map unit.fieldListing := List.map_congr_left fun field _ => fieldListing_only field
    simp only [failed?, List.filterMap_cons, List.filterMap_nil, hfields]
    rfl

theorem failures_only (unit : ClassUnit) (method : Method) :
    (unit.only method).failures = (failed? (method, unit.codeAlone method)).toList := by
  unfold failures
  rw [lower_only]
  cases unit.codeAlone method <;> rfl

theorem failed?_eq (linked : method.Linked) (apart : method.LabelsApart) (n : Nat) :
    failed? (method, (Site.listing { unit, method } n).1) = failed? (method, unit.codeAlone method) := by
  have hconcur := @codeAlone_concur unit method linked apart n
  generalize (Site.listing { unit, method } n).1 = outcome at hconcur
  cases halone : unit.codeAlone method <;> cases outcome <;> rw [halone] at hconcur
  · exact congrArg (fun fault => some (method.name, fault)) hconcur.symm
  · exact hconcur.elim
  · exact hconcur.elim
  · rfl

theorem failures_methodListings {methods : List Method} (linked : ∀ method ∈ methods, method.Linked)
    (apart : ∀ method ∈ methods, method.LabelsApart) (n : Nat) :
    (unit.methodListings methods n).filterMap failed?
      = methods.flatMap fun method => (unit.only method).failures := by
  induction methods generalizing n with
  | nil => rfl
  | cons method rest ih =>
    obtain ⟨hlinked, linkedRest⟩ := List.forall_mem_cons.mp linked
    obtain ⟨hapart, apartRest⟩ := List.forall_mem_cons.mp apart
    rw [methodListings, List.filterMap_cons, failed?_eq hlinked hapart, ih linkedRest apartRest,
      List.flatMap_cons, failures_only]
    cases failed? (method, unit.codeAlone method) <;> rfl

theorem Listed.length_eq {methods : List Method} {listings : List MethodListing}
    (h : unit.Listed n methods listings) : listings.length = methods.length := by
  induction h with
  | nil n => rfl
  | cons _ _ ih => exact congrArg Nat.succ ih

/-- Each method of the row has the code that it has alone, shifted by the numbers drawn before it. -/
theorem Listed.codeAlone {methods : List Method} {listings : List MethodListing}
    (h : unit.Listed n methods listings) (linked : ∀ method ∈ methods, method.Linked)
    (apart : ∀ method ∈ methods, method.LabelsApart) {index : Nat} {method : Method}
    (hmethod : methods[index]? = some method) :
    ∃ code, unit.codeAlone method = .ok code ∧
      listings[index]? = some (code.relabel
        (shiftLabel (n + numbersDrawn ((methods.take index).flatMap Method.instructions)))) := by
  induction h generalizing index with
  | nil n => cases hmethod
  | @cons n k first rest lowered others hlisting _ ih =>
    obtain ⟨hlinked, linkedRest⟩ := List.forall_mem_cons.mp linked
    obtain ⟨hapart, apartRest⟩ := List.forall_mem_cons.mp apart
    cases index with
    | zero =>
      cases hmethod
      have hconcur := @codeAlone_concur unit method hlinked hapart n
      rw [hlisting] at hconcur
      cases halone : unit.codeAlone method with
      | error fault =>
        rw [halone] at hconcur
        exact hconcur.elim
      | ok code =>
        rw [halone] at hconcur
        exact ⟨code, rfl, congrArg some hconcur⟩
    | succ index =>
      obtain ⟨code, hcode, hfound⟩ := ih linkedRest apartRest hmethod
      refine ⟨code, hcode, ?_⟩
      rw [(Site.listing_labels_perm hlisting).1, Nat.add_assoc, ← numbersDrawn_append] at hfound
      exact hfound

/-- A class can be lowered exactly if each of its methods can be when it is alone. Those that cannot be are
told in their order, each with its own reason. If all can be, then each gets the code that it has alone,
with the numbers in the made up labels shifted by the comparisons before it. -/
theorem lower_independent (arranged : unit.Arranged)
    (apart : ∀ method ∈ unit.methods, method.LabelsApart) :
    (unit.lower.isOk = true ↔ ∀ method ∈ unit.methods, (unit.only method).lower.isOk = true) ∧
      (∀ failure, unit.lower = .error failure →
        failure.failures = unit.methods.flatMap fun method => (unit.only method).failures) ∧
      (∀ method alone, (unit.only method).lower = .error alone →
        ∃ fault, alone.failures = [(method.name, fault)]) ∧
      ∀ listing, unit.lower = .ok listing → listing.methods.length = unit.methods.length ∧
        ∀ index method, unit.methods[index]? = some method →
          ∃ code, (unit.only method).lower = .ok { listing with methods := [code] } ∧
            listing.methods[index]? = some (code.relabel (shiftLabel
              (numbersDrawn ((unit.methods.take index).flatMap Method.instructions)))) := by
  have hfailures : unit.failures = unit.methods.flatMap fun method => (unit.only method).failures :=
    (failures_eq unit).trans (failures_methodListings arranged.linked apart 0)
  refine ⟨?_, fun failure hlower => ?_, fun method alone hlower => ?_, fun listing hlower => ?_⟩
  · simp only [isOk_lower_iff, hfailures, List.flatMap_eq_nil_iff]
  · rw [← hfailures, failures, hlower]
  · rw [lower_only] at hlower
    cases halone : unit.codeAlone method with
    | ok code =>
      rw [halone] at hlower
      cases hlower
    | error fault =>
      rw [halone] at hlower
      cases hlower
      exact ⟨fault, rfl⟩
  · have hlisted := listed_of_lower hlower
    refine ⟨hlisted.length_eq, fun index method hmethod => ?_⟩
    obtain ⟨code, hcode, hfound⟩ := hlisted.codeAlone arranged.linked apart hmethod
    rw [Nat.zero_add] at hfound
    refine ⟨code, ?_, hfound⟩
    rw [lower_only, hcode]
    simp only [lower] at hlower
    split at hlower
    · cases hlower
      rfl
    · cases hlower

end ClassUnit

/-- Twice the same method, with its variables in different places. -/
def lessPair : ClassUnit where
  name := "Pair"
  super? := none
  access := .pub
  isFinal := false
  imports := []
  fields := []
  methods := [(lessMethod "start").withRegisters fun _ => 3,
    (lessMethod "start").withRegisters fun name => if name = "b" then 2 else 1]

/-- Alone, the second method has the number 0 in its labels; behind the first, it has the number 1. -/
theorem lower_independent_pair :
    lessPair.Arranged ∧ (∀ method ∈ lessPair.methods, method.LabelsApart) ∧
      ∃ listing code second, lessPair.methods[1]? = some second ∧ lessPair.lower = .ok listing ∧
        (lessPair.only second).lower = .ok { listing with methods := [code] } ∧
        listing.methods[1]? = some (code.relabel (shiftLabel 1)) ∧
        labelsOf code.body = ["start", "cmp0_true", "cmp0_end"] := by
  have arranged : lessPair.Arranged := by
    intro method hmethod
    simp only [lessPair, List.mem_cons, List.not_mem_nil, or_false] at hmethod
    rcases hmethod with rfl | rfl
    · exact ⟨lessDraft "start", lessMethod "start", _, rfl, rfl⟩
    · exact ⟨lessDraft "start", lessMethod "start", _, rfl, rfl⟩
  have apart : ∀ method ∈ lessPair.methods, method.LabelsApart := by
    intro method hmethod
    refine Method.labelsApart_of_take ?_
    revert method
    decide +kernel
  have rows : lessPair.bodyLabels?
      = some [["start", "cmp0_true", "cmp0_end"], ["start", "cmp1_true", "cmp1_end"]] := by
    decide +kernel
  obtain ⟨listing, hlower, -⟩ := ClassUnit.exists_of_bodyLabels? rows
  obtain ⟨-, -, -, hcodes⟩ := ClassUnit.lower_independent arranged apart
  obtain ⟨code, hcode, hfound⟩ := (hcodes listing hlower).2 1 _ rfl
  have hdrawn : numbersDrawn ((lessPair.methods.take 1).flatMap Method.instructions) = 1 := by
    decide +kernel
  have alone : (lessPair.only ((lessMethod "start").withRegisters
      fun name => if name = "b" then 2 else 1)).bodyLabels?
        = some [["start", "cmp0_true", "cmp0_end"]] := by
    decide +kernel
  rw [ClassUnit.bodyLabels?, hcode] at alone
  have hlabels : some [labelsOf code.body] = some [["start", "cmp0_true", "cmp0_end"]] := alone
  rw [hdrawn] at hfound
  exact ⟨arranged, apart, listing, code, _, rfl, hlower, hcode, hfound, by simpa using hlabels⟩

end ThreeAddress
