import ThreeAddress.Proofs.LoweringMeaning

/-!
# Which scalar methods can be lowered

Lowering a scalar method whose variables are declared fails for two reasons only: a `ret` without a
value that has a type all the same, and an end of the body where a value would have to be returned.
`Site.listing_isOk_iff` says so. Neither has to do with registers.
-/

namespace ThreeAddress

/-- A return of nothing has no type. -/
def Statement.ReturnFits : Statement → Prop
  | .ret none ty => ty = .void
  | _ => True

structure Method.Lowerable (method : Method) : Prop where
  returns : ∀ inst ∈ method.instructions, inst.statement.ReturnFits
  ends : method.ret = .void ∨
    ∃ last, method.instructions.getLast? = some last ∧ last.statement.leaves = true

theorem literalValue_of_scalar {value : Literal} {ty : Ty}
    (scalar : (Element.literal value ty).isScalar = true) : literalValue value ty = .ok value.word := by
  cases value with
  | int number =>
    cases ty with
    | int32 => rfl
    | boolean =>
      have hbit : number = 0 ∨ number = 1 := by simpa [Element.isScalar] using scalar
      exact if_pos hbit
    | _ => cases scalar
  | bool holds =>
    cases ty with
    | boolean => rfl
    | _ => cases scalar

theorem Operator.comparison?_of_isComparison {op : Operator} (h : op.isComparison = true) :
    ∃ comparison turned, op.comparison? = some comparison ∧
      op.swapped.comparison? = some turned := by
  cases op <;> simp [isComparison, comparison?, swapped] at h ⊢

theorem Operator.arithmeticOp?_of_not_isComparison {op : Operator} (h : op.isComparison = false)
    (hne : op ≠ .not) : ∃ machineOp, op.arithmeticOp? = some machineOp := by
  cases op <;> simp [isComparison, arithmeticOp?] at h hne ⊢

namespace Site

variable {site : Site} {n : Nat}

/-- The variables that the elements read are in registers. -/
def Holds (site : Site) (elements : List Element) : Prop :=
  ∀ name ∈ elements.flatMap Element.reads, ∃ register, site.method.register? name = some register

theorem load_succeeds {element : Element} (scalar : element.isScalar = true)
    (holds : site.Holds [element]) : ∃ code, site.load element = .ok code := by
  cases element with
  | literal value ty =>
    exact ⟨_, bind_ok.mpr ⟨value.word, literalValue_of_scalar scalar, rfl⟩⟩
  | operand name ty =>
    have hclass := Ty.isClassRef_of_isScalar scalar
    obtain ⟨register, hregister⟩ := holds name (by simp [Element.reads, hclass])
    refine ⟨ops [.iload register], ?_⟩
    rw [load_operand hclass, loadVariable, hregister]
    simp only [Ty.category_of_isScalar scalar]
  | slot name index ty => cases scalar

theorem holds_pair {left right : Element} (holds : site.Holds [left, right]) :
    site.Holds [left] ∧ site.Holds [right] := by
  simp only [Holds, List.flatMap_cons, List.flatMap_nil, List.append_nil, List.mem_append] at holds ⊢
  exact ⟨fun name hname => holds name (.inl hname), fun name hname => holds name (.inr hname)⟩

theorem binary_loads {binary : Binary} (scalar : binary.isScalar = true)
    (holds : site.Holds [binary.left, binary.right]) :
    (∃ left, site.load binary.left = .ok left) ∧ ∃ right, site.load binary.right = .ok right := by
  simp only [Binary.isScalar, Bool.and_eq_true] at scalar
  exact ⟨load_succeeds scalar.1.2 (holds_pair holds).1, load_succeeds scalar.2 (holds_pair holds).2⟩

theorem compareJump_succeeds {binary : Binary} {target : String} (scalar : binary.isScalar = true)
    (holds : site.Holds [binary.left, binary.right]) (h : binary.op.isComparison = true) :
    ∃ code, site.compareJump binary target = .ok code := by
  obtain ⟨⟨left, hleft⟩, right, hright⟩ := binary_loads scalar holds
  obtain ⟨comparison, turned, hcomparison, hturned⟩ := Operator.comparison?_of_isComparison h
  simp only [compareJump, hcomparison, hturned, hleft, hright]
  split
  · exact ⟨_, rfl⟩
  · split
    · exact ⟨_, rfl⟩
    · exact ⟨_, rfl⟩

theorem arithmetic_succeeds {binary : Binary} (scalar : binary.isScalar = true)
    (holds : site.Holds [binary.left, binary.right]) (h : binary.op.isComparison = false) :
    ∃ code, site.arithmetic binary = .ok code := by
  obtain ⟨⟨left, hleft⟩, right, hright⟩ := binary_loads scalar holds
  have hne : binary.op ≠ .not := by
    simp only [Binary.isScalar, Bool.and_eq_true, bne_iff_ne] at scalar
    exact scalar.1.1
  obtain ⟨machineOp, hmachineOp⟩ := Operator.arithmeticOp?_of_not_isComparison h hne
  exact ⟨left ++ right ++ ops [machineOp], by simp only [arithmetic, hmachineOp, hleft, hright]; rfl⟩

theorem binary_succeeds {binary : Binary} (scalar : binary.isScalar = true)
    (holds : site.Holds [binary.left, binary.right]) :
    ∃ code k, site.binary binary n = (.ok code, k) := by
  unfold Site.binary
  split
  · next hcomparison =>
    obtain ⟨jump, hjump⟩ := compareJump_succeeds scalar holds hcomparison
    refine ⟨jump ++ verdict n, n + 1, ?_⟩
    simp only [comparison, Emit.bind_ok, Emit.fresh_ok, Emit.lift_ok, Emit.pure_ok]
    exact ⟨n, n + 1, ⟨rfl, rfl⟩, jump, n + 1, ⟨hjump, rfl⟩, rfl, rfl⟩
  · next harithmetic =>
    obtain ⟨code, hcode⟩ := arithmetic_succeeds scalar holds (by simpa using harithmetic)
    exact ⟨code, n, Emit.lift_ok.mpr ⟨hcode, rfl⟩⟩

theorem value_succeeds {rhs : Statement} (scalar : rhs.isScalarValue = true)
    (holds : site.Holds rhs.operands) : ∃ code k, site.value rhs n = (.ok code, k) := by
  cases rhs with
  | element e =>
    obtain ⟨code, hcode⟩ := load_succeeds scalar holds
    exact ⟨code, n, Emit.lift_ok.mpr ⟨hcode, rfl⟩⟩
  | unary u =>
    obtain ⟨hop, hoperand⟩ := (Bool.and_eq_true _ _).mp scalar
    obtain ⟨loaded, hload⟩ := load_succeeds hoperand holds
    refine ⟨loaded ++ ops [.iconst 1, .ixor], n, Emit.lift_ok.mpr ⟨?_, rfl⟩⟩
    rw [Site.unary, if_pos (beq_iff_eq.mp hop), hload]
    rfl
  | binary b => exact binary_succeeds scalar holds
  | _ => cases scalar

theorem assign_succeeds {name : String} {ty : Ty} {rhs : Statement} {register : Nat}
    (hty : ty.isScalar = true) (hrhs : rhs.isScalarValue = true)
    (hregister : site.method.register? name = some register) (holds : site.Holds rhs.operands) :
    ∃ code k, site.assign (.operand name ty) rhs n = (.ok code, k) := by
  unfold assign
  cases hincrement : site.increment? (.operand name ty) rhs with
  | some increment => exact ⟨_, n, rfl⟩
  | none =>
    obtain ⟨stored, k, hstored⟩ := value_succeeds hrhs holds
    refine ⟨[] ++ stored ++ ops [.istore register], k, ?_⟩
    simp only [place_operand hty hregister, Emit.bind_ok, Emit.lift_ok, Emit.pure_ok]
    exact ⟨_, n, ⟨rfl, rfl⟩, stored, k, hstored, rfl, rfl⟩

theorem branchTo_succeeds {condition : Condition} {target : String}
    (scalar : condition.isScalar = true) (holds : site.Holds condition.operands) :
    ∃ code k, site.branchTo condition target n = (.ok code, k) := by
  cases condition with
  | single e =>
    obtain ⟨loaded, hload⟩ := load_succeeds scalar holds
    refine ⟨loaded ++ ops [.ifZero .ne target], n, ?_⟩
    simp only [branchTo, Emit.bind_ok, Emit.lift_ok, Emit.pure_ok]
    exact ⟨loaded, n, ⟨hload, rfl⟩, rfl, rfl⟩
  | unary u =>
    obtain ⟨hop, hoperand⟩ := (Bool.and_eq_true _ _).mp scalar
    obtain ⟨loaded, hload⟩ := load_succeeds hoperand holds
    refine ⟨loaded ++ ops [.ifZero .eq target], n, ?_⟩
    simp only [branchTo, if_pos (beq_iff_eq.mp hop), Emit.bind_ok, Emit.lift_ok, Emit.pure_ok]
    exact ⟨loaded, n, ⟨hload, rfl⟩, rfl, rfl⟩
  | binary b =>
    simp only [branchTo]
    split
    · next hcomparison =>
      obtain ⟨jump, hjump⟩ := compareJump_succeeds scalar holds hcomparison
      exact ⟨jump, n, Emit.lift_ok.mpr ⟨hjump, rfl⟩⟩
    · obtain ⟨loaded, k, hloaded⟩ := binary_succeeds scalar holds
      refine ⟨loaded ++ ops [.ifZero .ne target], k, ?_⟩
      simp only [Emit.bind_ok, Emit.pure_ok]
      exact ⟨loaded, k, hloaded, rfl, rfl⟩

theorem statement_succeeds_iff (linked : site.method.Linked) (declares : site.method.Declares)
    {inst : Instruction} (hinst : inst ∈ site.method.instructions)
    (scalar : inst.statement.isScalar = true) :
    (∃ code k, site.statement inst.statement n = (.ok code, k)) ↔ inst.statement.ReturnFits := by
  have holds : site.Holds inst.statement.operands := fun name hname =>
    Method.exists_register? (declares inst hinst name (.inr hname))
  cases hstatement : inst.statement with
  | assign dest ty rhs =>
    rw [hstatement] at scalar holds
    cases dest with
    | operand name destTy =>
      obtain ⟨hty, hrhs⟩ := (Bool.and_eq_true _ _).mp scalar
      have hdef : name ∈ inst.statement.defs := by
        simp [hstatement, Statement.defs, Statement.def?, Element.name?,
          Ty.isClassRef_of_isScalar hty]
      obtain ⟨register, hregister⟩ := Method.exists_register? (declares inst hinst name (.inl hdef))
      exact ⟨fun _ => trivial, fun _ => assign_succeeds hty hrhs hregister holds⟩
    | literal value ty => cases scalar
    | slot name position ty => cases scalar
  | goto label =>
    obtain ⟨id, hid⟩ := linked.label?_of_jump hinst (by rw [hstatement]; rfl)
    obtain ⟨target, _, htarget, -⟩ := follow_ok linked hid
    refine ⟨fun _ => trivial, fun _ => ⟨ops [.goto target], n, ?_⟩⟩
    simp only [Site.statement, Emit.bind_ok, Emit.lift_ok, Emit.pure_ok]
    exact ⟨target, n, ⟨htarget, rfl⟩, rfl, rfl⟩
  | branch condition label =>
    rw [hstatement] at scalar holds
    obtain ⟨id, hid⟩ := linked.label?_of_jump hinst (by rw [hstatement]; rfl)
    obtain ⟨target, _, htarget, -⟩ := follow_ok linked hid
    obtain ⟨code, k, hcode⟩ := branchTo_succeeds scalar holds
    refine ⟨fun _ => trivial, fun _ => ⟨code, k, ?_⟩⟩
    simp only [Site.statement, Emit.bind_ok, Emit.lift_ok]
    exact ⟨target, n, ⟨htarget, rfl⟩, hcode⟩
  | ret value? ty =>
    rw [hstatement] at scalar holds
    simp only [Site.statement, Emit.lift_ok]
    cases value? with
    | none =>
      simp only [ret_none_ok]
      constructor
      · rintro ⟨_, _, ⟨hvoid, -⟩, -⟩
        exact hvoid
      · exact fun hvoid => ⟨_, n, ⟨hvoid, rfl⟩, rfl⟩
    | some value =>
      obtain ⟨hty, hvalue⟩ := (Bool.and_eq_true _ _).mp scalar
      obtain ⟨loaded, hload⟩ := load_succeeds hvalue holds
      refine ⟨fun _ => trivial, fun _ => ⟨loaded ++ ops [.ireturn], n, ?_, rfl⟩⟩
      simp only [Site.ret, Ty.category_of_isScalar hty, hload]
      rfl
  | _ =>
    rw [hstatement] at scalar
    cases scalar

theorem emitted_succeeds_iff {insts : List Instruction} {Fits : Instruction → Prop}
    (h : ∀ inst ∈ insts, ∀ n, (∃ code k, site.statement inst.statement n = (.ok code, k)) ↔ Fits inst) :
    (∃ items n', site.Emitted n (insts.map .single) items n') ↔ ∀ inst ∈ insts, Fits inst := by
  induction insts generalizing n with
  | nil => exact ⟨fun _ _ hinst => absurd hinst List.not_mem_nil, fun _ => ⟨[], n, .nil n⟩⟩
  | cons first rest ih =>
    have hrest := fun n => ih (n := n) fun inst hinst => h inst (List.mem_cons_of_mem _ hinst)
    rw [List.forall_mem_cons]
    constructor
    · rintro ⟨items, n', hitems⟩
      obtain ⟨code, k, others, hcode, hothers, -⟩ := emitted_cons.mp hitems
      exact ⟨(h first List.mem_cons_self n).mp ⟨code, k, hcode⟩, (hrest k).mp ⟨others, n', hothers⟩⟩
    · rintro ⟨hfirst, hothers⟩
      obtain ⟨code, k, hcode⟩ := (h first List.mem_cons_self n).mpr hfirst
      obtain ⟨others, n', hemitted⟩ := (hrest k).mpr hothers
      exact ⟨_, n', .cons hcode hemitted⟩

/-- The last item of a body is that of its last instruction. -/
theorem emitted_last {insts : List Instruction} {last : Instruction} {items : List Item} {n' : Nat}
    (scalar : ∀ inst ∈ insts, inst.statement.isScalar = true)
    (h : site.Emitted n (insts.map .single) items n') (hlast : insts.getLast? = some last) :
    fallsThrough items = !last.statement.leaves := by
  obtain ⟨others, rfl⟩ := List.getLast?_eq_some_iff.mp hlast
  rw [List.map_append] at h
  obtain ⟨before, rest, k, rfl, -, hrest⟩ := h.split
  obtain ⟨code, k', _, hcode, hnone, rfl⟩ := emitted_cons.mp hrest
  obtain ⟨rfl, -⟩ := emitted_nil.mp hnone
  obtain ⟨first, op, rfl, hleaves⟩ := statement_last (scalar last (by simp)) hcode
  have hop : (before ++ (Chunk.labels (.single last) |>.map .label) ++ (first ++ ops [op])
      : List Item).getLast? = some (.op op) := by
    rw [← List.append_assoc]
    exact List.getLast?_append
  rw [List.append_nil, ← List.append_assoc, fallsThrough, hop, ← hleaves]

theorem close_isOk_iff {items : List Item} :
    (∃ body, site.close items = .ok body) ↔ fallsThrough items = false ∨ site.method.ret = .void := by
  unfold close
  cases fallsThrough items with
  | false => simp
  | true =>
    simp only [Bool.not_true, Bool.false_eq_true, if_false, Bool.true_eq_false, false_or,
      ← Ty.isVoid_iff]
    cases site.method.ret.isVoid <;> simp

theorem body_isOk_iff (linked : site.method.Linked) (declares : site.method.Declares)
    (scalar : site.method.Scalar) :
    (∃ body n', site.body n = (.ok body, n')) ↔ site.method.Lowerable := by
  have hemitted : (∃ items n', site.Emitted n (site.method.instructions.map .single) items n') ↔
      ∀ inst ∈ site.method.instructions, inst.statement.ReturnFits :=
    emitted_succeeds_iff fun inst hinst _ =>
      statement_succeeds_iff linked declares hinst (scalar inst hinst)
  -- Whether control gets to the end does not depend on the items.
  have hends : ∀ items n', site.Emitted n (site.method.instructions.map .single) items n' →
      (fallsThrough items = false ↔ ∃ last, site.method.instructions.getLast? = some last ∧
        last.statement.leaves = true) := by
    intro items n' hitems
    cases hlast : site.method.instructions.getLast? with
    | none =>
      rw [List.getLast?_eq_none_iff.mp hlast] at hitems
      obtain ⟨rfl, -⟩ := emitted_nil.mp hitems
      simp [fallsThrough]
    | some last => simp [emitted_last scalar hitems hlast]
  simp only [body_ok, Chunk.ofInstructions_of_scalar scalar]
  constructor
  · rintro ⟨body, n', items, hitems, hclose⟩
    refine ⟨hemitted.mp ⟨items, n', hitems⟩, ?_⟩
    rw [← hends items n' hitems]
    exact (close_isOk_iff.mp ⟨body, hclose⟩).symm
  · rintro ⟨hreturns, hend⟩
    obtain ⟨items, n', hitems⟩ := hemitted.mpr hreturns
    rw [← hends items n' hitems] at hend
    obtain ⟨body, hclose⟩ := close_isOk_iff.mpr hend.symm
    exact ⟨body, n', items, hitems, hclose⟩

/-- A body of scalar code always has a greatest depth. -/
theorem listing_isOk_iff (linked : site.method.Linked) (declares : site.method.Declares)
    (scalar : site.method.Scalar) (apart : site.method.LabelsApart) :
    (∃ listing n', site.listing n = (.ok listing, n')) ↔ site.method.Lowerable := by
  rw [← body_isOk_iff (n := n) linked declares scalar]
  constructor
  · rintro ⟨listing, n', hlisting⟩
    exact ⟨listing.body, n', (listing_ok hlisting).1⟩
  · rintro ⟨body, n', hbody⟩
    obtain ⟨items, hitems, hclose⟩ := body_ok.mp hbody
    obtain ⟨depthOf, after, hpasses⟩ :=
      (coded_of_scalar linked scalar hitems).body_passes apart linked hclose
    have hlimit : maxStack body = .ok after.max := by rw [maxStack, hpasses.applyAll]
    simp only [Site.listing, Emit.bind_ok, Emit.lift_ok, Emit.pure_ok]
    exact ⟨_, n', body, n', hbody, after.max, n', ⟨hlimit, rfl⟩, rfl, rfl⟩

end Site

end ThreeAddress
