import ThreeAddress.Proofs.Follow
import ThreeAddress.Proofs.Straight

/-!
# The code of a statement

`Site.Code` lists the shapes that the items of one statement can have, and `Site.statement_code` says
that there are no others, but for a store of what a call without a value returns. Only one of them has
labels of its own: a comparison whose outcome is a value. A body is the code of its chunks in order,
where a chunk is an instruction or a creation fused with the call of the constructor;
`Site.instructions_ok` puts the lowering of a body in this form, and `Site.Emitted.coded_or_short` says
that every chunk in it has one of the shapes.
-/

namespace ThreeAddress

namespace Emit

variable {α β : Type} {n n' : Nat}

theorem bind_ok {p : Emit α} {f : α → Emit β} {b : β} :
    (p >>= f) n = (.ok b, n') ↔ ∃ a k, p n = (.ok a, k) ∧ f a k = (.ok b, n') := by
  rw [bind_apply]
  obtain ⟨outcome, k⟩ := p n
  cases outcome with
  | error fault => simp
  | ok a =>
    constructor
    · exact fun h => ⟨a, k, rfl, h⟩
    · rintro ⟨a', k', heq, h⟩
      cases heq
      exact h

theorem pure_ok {a b : α} : (pure a : Emit α) n = (.ok b, n') ↔ a = b ∧ n = n' := by
  simp

theorem lift_ok {x : Except Fault α} {a : α} :
    (liftM x : Emit α) n = (.ok a, n') ↔ x = .ok a ∧ n = n' := by
  show (x, n) = (.ok a, n') ↔ _
  rw [Prod.mk.injEq]

theorem fresh_ok {k : Nat} : Emit.fresh n = (.ok k, n') ↔ n = k ∧ n + 1 = n' := by
  simp [fresh]

theorem exists_ok {p : Emit α} {a : α} (h : (p n).1.toOption = some a) :
    ∃ n', p n = (.ok a, n') := by
  generalize p n = result at h
  obtain ⟨outcome, n'⟩ := result
  cases outcome with
  | error fault => cases h
  | ok found =>
    cases h
    exact ⟨n', rfl⟩

@[simp] theorem fail_ok {fault : Fault} {a : α} : (fail fault : Emit α) n = (.ok a, n') ↔ False := by
  simp [fail]

end Emit

/-- The instruction that returns from a method whose result has the category. -/
def Category.returnOp : Category → StackOp
  | .integer => .ireturn
  | .reference => .areturn
  | .void => .ret

theorem Category.returnOp_leaves (category : Category) :
    category.returnOp.target? = none ∧ category.returnOp.isTerminator = true ∧
      category.returnOp.pushes = 0 ∧ category.returnOp.register? = none := by
  cases category <;> exact ⟨rfl, rfl, rfl, rfl⟩

/-- What follows the jump of a comparison that is to become a value. -/
def verdict (number : Nat) : List Item :=
  [.op (.iconst 0), .op (.goto (endLabel number)), .label (holdsLabel number), .op (.iconst 1),
    .label (endLabel number)]

/-- Control never goes on from the statement to the next one. -/
def Statement.leaves : Statement → Bool
  | .goto _ | .ret .. => true
  | _ => false

/-- The statement stores what a call returns. -/
def Statement.StoresCall (statement : Statement) : Prop :=
  ∃ dest ty call, statement = .assign dest ty (.call call)

namespace Site

/-- The items load values and end in an instruction that takes them all and may jump to `label`.
`always` says whether it does so in any case. -/
def Jumps (site : Site) (items : List Item) (label : String) (always : Bool) : Prop :=
  ∃ loaded op, items = loaded ++ ops [op] ∧ site.Pushes loaded op.pops ∧ op.target? = some label ∧
    op.isTerminator = always ∧ op.pushes = 0 ∧ op.register? = none

/-- The items end in a return that takes all they load. -/
def Returns (site : Site) (items : List Item) : Prop :=
  ∃ loaded op, items = loaded ++ ops [op] ∧ site.Pushes loaded op.pops ∧ op.target? = none ∧
    op.isTerminator = true ∧ op.pushes = 0 ∧ op.register? = none

/-- The code of a statement. The first number is the next to be drawn before it, the second the next
after it. -/
inductive Code (site : Site) : Nat → List Item → Nat → Prop
  | straight {n : Nat} {items : List Item} : site.Pushes items 0 → Code site n items n
  | jump {n : Nat} {items : List Item} {label : String} {always : Bool} :
    site.Jumps items label always → (∃ id, site.method.label? label = some id) →
    Code site n items n
  | leave {n : Nat} {items : List Item} : site.Returns items → Code site n items n
  | comparison {n below : Nat} {before jump : List Item} {store : StackOp} :
    site.Pushes before below → site.Jumps jump (holdsLabel n) false → store.Plain →
    store.pops = below + 1 → store.pushes = 0 → store.Within site.method.maxLocals →
    Code site n (before ++ (jump ++ verdict n) ++ ops [store]) (n + 1)

/-- The items store a value that is not there. -/
def Short (site : Site) (items : List Item) : Prop :=
  ∃ before stored below store, items = before ++ stored ++ ops [store] ∧ site.Pushes before below ∧
    site.Pushes stored 0 ∧ store.pops = below + 1

variable {site : Site} {n n' : Nat}

theorem compareJump_jumps {binary : Binary} {target : String} {items : List Item}
    (h : site.compareJump binary target = .ok items) : site.Jumps items target false := by
  unfold compareJump at h
  split at h
  · split at h
    · obtain ⟨left, hleft, h⟩ := ThreeAddress.bind_ok.mp h
      cases h
      exact ⟨left, _, rfl, load_pushes hleft, rfl, rfl, rfl, rfl⟩
    · split at h
      · obtain ⟨right, hright, h⟩ := ThreeAddress.bind_ok.mp h
        cases h
        exact ⟨right, _, rfl, load_pushes hright, rfl, rfl, rfl, rfl⟩
      · simp only [ThreeAddress.bind_ok] at h
        obtain ⟨left, hleft, right, hright, h⟩ := h
        cases h
        exact ⟨left ++ right, _, rfl, (load_pushes hleft).append (load_pushes hright), rfl, rfl, rfl, rfl⟩
  · cases h

theorem comparison_ok {binary : Binary} {items : List Item}
    (h : site.comparison binary n = (.ok items, n')) :
    n' = n + 1 ∧ ∃ jump, site.compareJump binary (holdsLabel n) = .ok jump ∧
      items = jump ++ verdict n := by
  unfold comparison at h
  simp only [Emit.bind_ok, Emit.fresh_ok, Emit.lift_ok, Emit.pure_ok] at h
  obtain ⟨number, _, ⟨rfl, rfl⟩, jump, _, ⟨hjump, rfl⟩, rfl, rfl⟩ := h
  exact ⟨rfl, jump, hjump, rfl⟩

/-- A right-hand side pushes its value, or nothing if it is a call without one, or it is a comparison
and goes through labels of its own. -/
theorem value_ok {rhs : Statement} {items : List Item} (h : site.value rhs n = (.ok items, n')) :
    (n' = n ∧ ∃ count ≤ 1, site.Pushes items count ∧
        (count = 0 → ∃ call, rhs = .call call ∧ callPushes call = 0)) ∨
      (n' = n + 1 ∧ ∃ jump, site.Jumps jump (holdsLabel n) false ∧ items = jump ++ verdict n) := by
  cases rhs with
  | element e =>
    obtain ⟨hload, rfl⟩ := Emit.lift_ok.mp h
    exact .inl ⟨rfl, 1, Nat.le_refl 1, load_pushes hload, fun h => nomatch h⟩
  | call c =>
    obtain ⟨hcall, rfl⟩ := Emit.lift_ok.mp h
    refine .inl ⟨rfl, callPushes c, ?_, call_pushes hcall, fun hzero => ⟨c, rfl, hzero⟩⟩
    unfold callPushes
    split <;> omega
  | getField object field ty =>
    obtain ⟨hget, rfl⟩ := Emit.lift_ok.mp h
    exact .inl ⟨rfl, 1, Nat.le_refl 1, getField_pushes hget, fun h => nomatch h⟩
  | unary u =>
    obtain ⟨hunary, rfl⟩ := Emit.lift_ok.mp h
    exact .inl ⟨rfl, 1, Nat.le_refl 1, unary_pushes hunary, fun h => nomatch h⟩
  | binary b =>
    change site.binary b n = _ at h
    unfold Site.binary at h
    split at h
    · obtain ⟨rfl, jump, hjump, rfl⟩ := comparison_ok h
      exact .inr ⟨rfl, jump, compareJump_jumps hjump, rfl⟩
    · obtain ⟨harithmetic, rfl⟩ := Emit.lift_ok.mp h
      exact .inl ⟨rfl, 1, Nat.le_refl 1, arithmetic_pushes harithmetic, fun h => nomatch h⟩
  | _ => exact absurd h (by simp [value])

/-- A value and what is done with it. -/
theorem code_of_value {rhs : Statement} {before items : List Item} {below : Nat} {store : StackOp}
    (hbefore : site.Pushes before below) (plain : store.Plain) (hpops : store.pops = below + 1)
    (hpushes : store.pushes = 0) (within : store.Within site.method.maxLocals)
    (h : site.value rhs n = (.ok items, n')) :
    site.Code n (before ++ items ++ ops [store]) n' ∨
      (∃ call, rhs = .call call) ∧ site.Short (before ++ items ++ ops [store]) := by
  rcases value_ok h with ⟨rfl, count, hcount, hitems, hcall⟩ | ⟨rfl, jump, hjump, rfl⟩
  · obtain rfl | rfl : count = 0 ∨ count = 1 := by omega
    · obtain ⟨call, hrhs, -⟩ := hcall rfl
      exact .inr ⟨⟨call, hrhs⟩, before, items, below, store, rfl, hbefore, hitems, hpops⟩
    · exact .inl (.straight ((hbefore.append hitems).snoc plain (by omega) within (by omega)))
  · exact .inl (.comparison hbefore hjump plain hpops hpushes within)

theorem pushes_iinc {dest : Element} {rhs : Statement} {register : Nat} {amount : Int32}
    (h : site.increment? dest rhs = some (register, amount)) :
    site.Pushes (ops [.iinc register amount]) 0 := by
  have hregister : ∃ name, site.method.register? name = some register := by
    unfold increment? at h
    split at h
    · simp only [Option.bind_eq_bind, Option.bind_eq_some_iff] at h
      obtain ⟨found, hfound, amount', -, hrange⟩ := h
      split at hrange
      · cases hrange
        exact ⟨_, hfound⟩
      · cases hrange
    · cases h
  obtain ⟨name, hname⟩ := hregister
  exact pushes_nil.snoc ⟨rfl, rfl⟩ (Nat.le_refl 0) (within_register rfl hname) rfl

theorem branchTo_jumps {condition : Condition} {target : String} {items : List Item}
    (h : site.branchTo condition target n = (.ok items, n')) :
    n' = n ∧ site.Jumps items target false := by
  unfold branchTo at h
  split at h
  · simp only [Emit.bind_ok, Emit.lift_ok, Emit.pure_ok] at h
    obtain ⟨loaded, _, ⟨hload, rfl⟩, rfl, rfl⟩ := h
    exact ⟨rfl, loaded, _, rfl, load_pushes hload, rfl, rfl, rfl, rfl⟩
  · split at h
    · simp only [Emit.bind_ok, Emit.lift_ok, Emit.pure_ok] at h
      obtain ⟨loaded, _, ⟨hload, rfl⟩, rfl, rfl⟩ := h
      exact ⟨rfl, loaded, _, rfl, load_pushes hload, rfl, rfl, rfl, rfl⟩
    · exact absurd h (by simp)
  · split at h
    · obtain ⟨hjump, rfl⟩ := Emit.lift_ok.mp h
      exact ⟨rfl, compareJump_jumps hjump⟩
    · next notComparison =>
      simp only [Site.binary, notComparison, Bool.false_eq_true, if_false, Emit.bind_ok,
        Emit.lift_ok, Emit.pure_ok] at h
      obtain ⟨loaded, _, ⟨hload, rfl⟩, rfl, rfl⟩ := h
      exact ⟨rfl, loaded, _, rfl, arithmetic_pushes hload, rfl, rfl, rfl, rfl⟩

/-- A return loads what it takes and then returns by the category of the type that it is written with. -/
theorem ret_ok {value? : Option Element} {ty : Ty} {items : List Item}
    (h : site.ret value? ty = .ok items) :
    ∃ loaded, items = loaded ++ ops [ty.category.returnOp] ∧
      site.Pushes loaded ty.category.returnOp.pops := by
  unfold Site.ret at h
  split at h
  · next hvoid =>
    cases h
    rw [hvoid]
    exact ⟨[], rfl, pushes_nil⟩
  · cases h
  · cases h
  · next hinteger =>
    obtain ⟨loaded, hload, h⟩ := ThreeAddress.bind_ok.mp h
    cases h
    rw [hinteger]
    exact ⟨loaded, rfl, load_pushes hload⟩
  · next hreference =>
    obtain ⟨loaded, hload, h⟩ := ThreeAddress.bind_ok.mp h
    cases h
    rw [hreference]
    exact ⟨loaded, rfl, load_pushes hload⟩

theorem ret_returns {value? : Option Element} {ty : Ty} {items : List Item}
    (h : site.ret value? ty = .ok items) : site.Returns items := by
  obtain ⟨loaded, rfl, hloaded⟩ := ret_ok h
  exact ⟨loaded, _, rfl, hloaded, ty.category.returnOp_leaves⟩

-- A value that nothing uses is stored nowhere: `pop` is the store.
theorem code_of_unused {rhs : Statement} {items : List Item} (hrhs : ∀ call, rhs ≠ .call call)
    (h : (do let pushed ← site.value rhs; pure (pushed ++ ops [.pop]) : Emit (List Item)) n
      = (.ok items, n')) : site.Code n items n' := by
  simp only [Emit.bind_ok, Emit.pure_ok] at h
  obtain ⟨pushed, _, hvalue, rfl, rfl⟩ := h
  have hcode : site.Code n ([] ++ pushed ++ ops [.pop]) _ ∨ _ :=
    code_of_value pushes_nil ⟨rfl, rfl⟩ rfl rfl (StackOp.within_of_none rfl) hvalue
  exact hcode.resolve_right fun ⟨⟨call, hcall⟩, _⟩ => hrhs call hcall

theorem assign_code {dest : Element} {rhs : Statement} {items : List Item}
    (h : site.assign dest rhs n = (.ok items, n')) :
    site.Code n items n' ∨ (∃ call, rhs = .call call) ∧ site.Short items := by
  unfold assign at h
  cases hincrement : site.increment? dest rhs with
  | some increment =>
    rw [hincrement] at h
    obtain ⟨rfl, rfl⟩ := Emit.pure_ok.mp h
    exact .inl (.straight (pushes_iinc hincrement))
  | none =>
    rw [hincrement] at h
    simp only [Emit.bind_ok, Emit.lift_ok, Emit.pure_ok] at h
    obtain ⟨⟨before, store⟩, _, ⟨hplace, rfl⟩, stored, _, hvalue, rfl, rfl⟩ := h
    obtain ⟨below, hbefore, plain, hpops, hpushes, within⟩ := place_pushes hplace
    exact code_of_value hbefore plain hpops hpushes within hvalue

/-- The length of an array is dropped only if the call is said to return something. -/
theorem statement_code (linked : site.method.Linked) {statement : Statement} {items : List Item}
    (hjump : ∀ label, statement.jump? = some label → ∃ id, site.method.label? label = some id)
    (hlength : ∀ call, statement = .call call → call.invocation = .arrayLength → call.ret ≠ .void)
    (h : site.statement statement n = (.ok items, n')) :
    site.Code n items n' ∨ statement.StoresCall ∧ site.Short items := by
  cases statement with
  | assign dest ty rhs =>
    refine (assign_code h).imp_right fun ⟨⟨call, hcall⟩, hshort⟩ => ⟨⟨dest, ty, call, ?_⟩, hshort⟩
    rw [hcall]
  | call c =>
    simp only [Site.statement, Emit.bind_ok, Emit.lift_ok, Emit.pure_ok] at h
    obtain ⟨called, _, ⟨hcall, rfl⟩, rfl, rfl⟩ := h
    have hpushes := call_pushes hcall
    unfold callPushes at hpushes
    by_cases hvoid : c.ret.isVoid = true
    · rw [if_pos hvoid]
      rw [Ty.isVoid_iff] at hvoid
      rw [if_pos ⟨hvoid, fun harray => hlength c rfl harray hvoid⟩] at hpushes
      exact .inl (.straight hpushes)
    · rw [if_neg hvoid]
      rw [Ty.isVoid_iff] at hvoid
      rw [if_neg fun hboth => hvoid hboth.1] at hpushes
      refine .inl (.straight ?_)
      exact hpushes.snoc ⟨rfl, rfl⟩ (Nat.le_refl 1) (StackOp.within_of_none rfl) rfl
  | goto label =>
    simp only [Site.statement, Emit.bind_ok, Emit.lift_ok, Emit.pure_ok] at h
    obtain ⟨target, _, ⟨hfollow, rfl⟩, rfl, rfl⟩ := h
    obtain ⟨id, hid⟩ := hjump label rfl
    obtain ⟨last, lastId, hlast, hlastId, -⟩ := follow_ok linked hid
    cases hfollow.symm.trans hlast
    exact .inl (.jump ⟨[], _, rfl, pushes_nil, rfl, rfl, rfl, rfl⟩ ⟨lastId, hlastId⟩)
  | branch condition label =>
    simp only [Site.statement, Emit.bind_ok, Emit.lift_ok] at h
    obtain ⟨target, _, ⟨hfollow, rfl⟩, hbranch⟩ := h
    obtain ⟨id, hid⟩ := hjump label rfl
    obtain ⟨last, lastId, hlast, hlastId, -⟩ := follow_ok linked hid
    cases hfollow.symm.trans hlast
    obtain ⟨rfl, hjumps⟩ := branchTo_jumps hbranch
    exact .inl (.jump hjumps ⟨lastId, hlastId⟩)
  | ret value? ty =>
    obtain ⟨hret, rfl⟩ := Emit.lift_ok.mp h
    exact .inl (.leave (ret_returns hret))
  | putField object field value =>
    obtain ⟨hput, rfl⟩ := Emit.lift_ok.mp h
    exact .inl (.straight (putField_pushes hput))
  | getField object field ty => exact .inl (code_of_unused (fun _ => Statement.noConfusion) h)
  | unary u => exact .inl (code_of_unused (fun _ => Statement.noConfusion) h)
  | binary b => exact .inl (code_of_unused (fun _ => Statement.noConfusion) h)
  | element e => exact .inl (code_of_unused (fun _ => Statement.noConfusion) h)

end Site

-- ---------------------------------------------------------------------------
-- Chunks
-- ---------------------------------------------------------------------------

/-- What is lowered in one go. -/
inductive Chunk where
  | single (inst : Instruction)
  /-- The creation of an object, with the labels of its instruction, and the call after it. -/
  | fused (inst : Instruction) (construction : Construction)

namespace Chunk

def labels : Chunk → List String
  | .single inst | .fused inst _ => inst.labels

def ofInstructions : List Instruction → List Chunk
  | [] => []
  | [inst] => [.single inst]
  | inst :: next :: rest =>
    match Construction.of? inst next with
    | some construction => .fused inst construction :: ofInstructions rest
    | none => .single inst :: ofInstructions (next :: rest)

theorem mem_of_single {insts : List Instruction} {inst : Instruction}
    (h : .single inst ∈ ofInstructions insts) : inst ∈ insts := by
  fun_induction ofInstructions insts with
  | case1 => cases h
  | case2 other =>
    obtain rfl : inst = other := by simpa using h
    exact List.mem_cons_self
  | case3 other next rest construction _ ih =>
    have hrest : .single inst ∈ ofInstructions rest := by simpa using h
    exact List.mem_cons_of_mem _ (List.mem_cons_of_mem _ (ih hrest))
  | case4 other next rest _ ih =>
    rcases List.mem_cons.mp h with heq | hrest
    · cases heq
      exact List.mem_cons_self
    · exact List.mem_cons_of_mem _ (ih hrest)

theorem exists_of_fused {insts : List Instruction} {inst : Instruction} {construction : Construction}
    (h : .fused inst construction ∈ ofInstructions insts) :
    ∃ next ∈ insts, Construction.of? inst next = some construction := by
  fun_induction ofInstructions insts with
  | case1 => cases h
  | case2 other => simp at h
  | case3 other next rest fused hfused ih =>
    rcases List.mem_cons.mp h with heq | hrest
    · cases heq
      exact ⟨next, List.mem_cons_of_mem _ List.mem_cons_self, hfused⟩
    · obtain ⟨found, hfound, hof⟩ := ih hrest
      exact ⟨found, List.mem_cons_of_mem _ (List.mem_cons_of_mem _ hfound), hof⟩
  | case4 other next rest _ ih =>
    have hrest : .fused inst construction ∈ ofInstructions (next :: rest) := by simpa using h
    obtain ⟨found, hfound, hof⟩ := ih hrest
    exact ⟨found, List.mem_cons_of_mem _ hfound, hof⟩

end Chunk

theorem Construction.of?_eq_some {inst next : Instruction} {construction : Construction}
    (h : Construction.of? inst next = some construction) :
    next.statement = .call construction.init ∧ construction.init.invocation = .special ∧
      construction.init.method? = some Draft.constructorName ∧ next.labels = [] := by
  unfold Construction.of? at h
  split at h
  · next hnext =>
    simp only [Option.ite_none_right_eq_some, Bool.and_eq_true, beq_iff_eq,
      List.isEmpty_iff] at h
    obtain ⟨⟨⟨⟨⟨-, hspecial⟩, hname⟩, -⟩, hlabels⟩, heq⟩ := h
    cases heq
    exact ⟨hnext, hspecial, hname, hlabels⟩
  · cases h

/-- What is fused is a creation that is stored in a variable and the call right behind it. -/
theorem Construction.source_of_of? {inst next : Instruction} {construction : Construction}
    (h : Construction.of? inst next = some construction) :
    (∃ name ty, construction.dest = .operand name ty) ∧
      (∃ ty, inst.statement = .assign construction.dest ty (.call construction.create)) ∧
      next.statement = .call construction.init := by
  unfold Construction.of? at h
  split at h
  · next name ty declared create init hinst hnext =>
    simp only [Option.ite_none_right_eq_some] at h
    obtain ⟨-, heq⟩ := h
    cases heq
    exact ⟨⟨name, ty, rfl⟩, ⟨declared, hinst⟩, hnext⟩
  · cases h

-- The second instruction of a fused pair has no labels, so none are lost.
theorem Chunk.flatMap_labels (insts : List Instruction) :
    (ofInstructions insts).flatMap labels = insts.flatMap Instruction.labels := by
  fun_induction ofInstructions insts with
  | case1 => rfl
  | case2 inst => rfl
  | case3 inst next rest construction hfused ih =>
    obtain ⟨-, -, -, hlabels⟩ := Construction.of?_eq_some hfused
    simp [ih, hlabels, labels]
  | case4 inst next rest _ ih =>
    simp only [List.flatMap_cons] at ih ⊢
    rw [ih]
    rfl

/-- The call returns what such calls return: an array has a length, and a constructor gives nothing
back. -/
def Call.Fits (call : Call) : Prop :=
  (call.invocation = .arrayLength → call.ret ≠ .void) ∧
    (call.invocation = .special → call.method? = some Draft.constructorName → call.ret = .void)

instance (call : Call) : Decidable call.Fits :=
  inferInstanceAs (Decidable ((_ → _) ∧ (_ → _ → _)))

def Statement.CallFits : Statement → Prop
  | .call c => c.Fits
  | _ => True

instance : (statement : Statement) → Decidable statement.CallFits
  | .call c => inferInstanceAs (Decidable c.Fits)
  | .assign .. | .goto _ | .branch .. | .ret .. | .putField .. | .getField .. | .unary _ | .binary _
  | .element _ => inferInstanceAs (Decidable True)

def Method.CallsFit (method : Method) : Prop :=
  ∀ inst ∈ method.instructions, inst.statement.CallFits

namespace Site

def chunk (site : Site) : Chunk → Emit (List Item)
  | .single inst => site.statement inst.statement
  | .fused _ construction => liftM (site.construction construction)

/-- The items of a row of chunks, with the next numbers before and after it. -/
inductive Emitted (site : Site) : Nat → List Chunk → List Item → Nat → Prop
  | nil (n : Nat) : Emitted site n [] [] n
  | cons {n k n' : Nat} {chunk : Chunk} {rest : List Chunk} {code others : List Item} :
    site.chunk chunk n = (.ok code, k) → Emitted site k rest others n' →
    Emitted site n (chunk :: rest) (chunk.labels.map .label ++ code ++ others) n'

variable {site : Site} {n n' : Nat}

theorem emitted_nil {items : List Item} : site.Emitted n [] items n' ↔ items = [] ∧ n = n' := by
  constructor
  · rintro ⟨⟩
    exact ⟨rfl, rfl⟩
  · rintro ⟨rfl, rfl⟩
    exact .nil n

theorem emitted_cons {chunk : Chunk} {rest : List Chunk} {items : List Item} :
    site.Emitted n (chunk :: rest) items n' ↔ ∃ code k others, site.chunk chunk n = (.ok code, k) ∧
      site.Emitted k rest others n' ∧ items = chunk.labels.map .label ++ code ++ others := by
  constructor
  · rintro ⟨⟩
    exact ⟨_, _, _, ‹_›, ‹_›, rfl⟩
  · rintro ⟨code, k, others, hcode, hothers, rfl⟩
    exact .cons hcode hothers

theorem Emitted.split {first second : List Chunk} {items : List Item}
    (h : site.Emitted n (first ++ second) items n') :
    ∃ before rest k, items = before ++ rest ∧ site.Emitted n first before k ∧
      site.Emitted k second rest n' := by
  induction first generalizing n items with
  | nil => exact ⟨[], items, n, rfl, .nil n, h⟩
  | cons chunk others ih =>
    obtain ⟨code, k, later, hcode, hlater, rfl⟩ := emitted_cons.mp h
    obtain ⟨before, rest, k', rfl, hbefore, hrest⟩ := ih hlater
    exact ⟨_ ++ before, rest, k', (List.append_assoc _ _ _).symm, .cons hcode hbefore, hrest⟩

theorem instructions_ok {insts : List Instruction} {items : List Item} :
    site.instructions insts n = (.ok items, n') ↔
      site.Emitted n (Chunk.ofInstructions insts) items n' := by
  fun_induction Chunk.ofInstructions insts generalizing n n' items with
  | case1 =>
    rw [Site.instructions, Emit.pure_ok, emitted_nil]
    constructor <;> rintro ⟨rfl, rfl⟩ <;> exact ⟨rfl, rfl⟩
  | case2 inst =>
    rw [Site.instructions, emitted_cons]
    simp only [Emit.bind_ok, Emit.pure_ok, emitted_nil]
    constructor
    · rintro ⟨code, k, hcode, rfl, rfl⟩
      exact ⟨code, _, [], hcode, ⟨rfl, rfl⟩, by simp [labelItems, Chunk.labels]⟩
    · rintro ⟨code, k, _, hcode, ⟨rfl, rfl⟩, rfl⟩
      exact ⟨code, _, hcode, by simp [labelItems, Chunk.labels], rfl⟩
  | case3 inst next rest construction hfuse ih =>
    rw [Site.instructions, hfuse, emitted_cons]
    simp only [Emit.bind_ok, Emit.lift_ok, Emit.pure_ok, ih]
    constructor
    · rintro ⟨code, _, ⟨hcode, rfl⟩, others, _, hothers, rfl, rfl⟩
      exact ⟨code, _, others, Emit.lift_ok.mpr ⟨hcode, rfl⟩, hothers, rfl⟩
    · rintro ⟨code, k, others, hcode, hothers, rfl⟩
      simp only [chunk, Emit.lift_ok] at hcode
      obtain ⟨hcode, rfl⟩ := hcode
      exact ⟨code, _, ⟨hcode, rfl⟩, others, _, hothers, rfl, rfl⟩
  | case4 inst next rest hfuse ih =>
    rw [Site.instructions, hfuse, emitted_cons]
    simp only [Emit.bind_ok, Emit.pure_ok, ih]
    constructor
    · rintro ⟨code, k, hcode, others, _, hothers, rfl, rfl⟩
      exact ⟨code, k, others, hcode, hothers, rfl⟩
    · rintro ⟨code, k, others, hcode, hothers, rfl⟩
      exact ⟨code, k, hcode, others, _, hothers, rfl, rfl⟩

theorem close_ok {items body : List Item} (h : site.close items = .ok body) :
    (fallsThrough items = false ∧ body = items) ∨
      (site.method.ret = .void ∧ body = items ++ ops [.ret]) := by
  unfold close at h
  split at h
  · next hcloses =>
    cases h
    exact .inl ⟨by simpa using hcloses, rfl⟩
  · split at h
    · next hvoid =>
      cases h
      exact .inr ⟨Ty.isVoid_iff.mp hvoid, rfl⟩
    · cases h

theorem body_ok {body : List Item} : site.body n = (.ok body, n') ↔
    ∃ items, site.Emitted n (Chunk.ofInstructions site.method.instructions) items n' ∧
      site.close items = .ok body := by
  simp only [Site.body, Emit.bind_ok, Emit.lift_ok, instructions_ok]
  constructor
  · rintro ⟨items, _, hitems, hclose, rfl⟩
    exact ⟨items, hitems, hclose⟩
  · rintro ⟨items, hitems, hclose⟩
    exact ⟨items, n', hitems, hclose, rfl⟩

theorem listing_ok {listing : MethodListing} (h : site.listing n = (.ok listing, n')) :
    site.body n = (.ok listing.body, n') ∧ maxStack listing.body = .ok listing.maxStack ∧
      listing.maxLocals = site.method.maxLocals := by
  simp only [Site.listing, Emit.bind_ok, Emit.lift_ok, Emit.pure_ok] at h
  obtain ⟨body, _, hbody, limit, _, ⟨hlimit, rfl⟩, rfl, rfl⟩ := h
  exact ⟨hbody, hlimit, rfl⟩

theorem chunk_code (linked : site.method.Linked) (fit : site.method.CallsFit) {chunk : Chunk}
    {code : List Item} (hmem : chunk ∈ Chunk.ofInstructions site.method.instructions)
    (h : site.chunk chunk n = (.ok code, n')) :
    site.Code n code n' ∨
      (∃ inst, chunk = .single inst ∧ inst.statement.StoresCall) ∧ site.Short code := by
  cases chunk with
  | single inst =>
    have hinst := Chunk.mem_of_single hmem
    have hlength : ∀ call, inst.statement = .call call → call.invocation = .arrayLength →
        call.ret ≠ .void := by
      intro call hcall
      have hfits := fit inst hinst
      rw [hcall] at hfits
      exact hfits.1
    have hcode := statement_code linked (fun _ => linked.label?_of_jump hinst) hlength h
    exact hcode.imp_right fun ⟨hstores, hshort⟩ => ⟨⟨inst, rfl, hstores⟩, hshort⟩
  | fused inst construction =>
    obtain ⟨next, hnext, hof⟩ := Chunk.exists_of_fused hmem
    obtain ⟨hinit, hspecial, hname, -⟩ := Construction.of?_eq_some hof
    obtain ⟨hitems, rfl⟩ := Emit.lift_ok.mp h
    have hfits := fit next hnext
    rw [hinit] at hfits
    have hvoid := hfits.2 hspecial hname
    exact .inl (.straight (construction_pushes hvoid hitems))

/-- Like `Emitted`, where all that is known of the items is their shape. -/
inductive Coded (site : Site) : Nat → List Chunk → List Item → Nat → Prop
  | nil (n : Nat) : Coded site n [] [] n
  | cons {n k n' : Nat} {chunk : Chunk} {rest : List Chunk} {code others : List Item} :
    Code site n code k → Coded site k rest others n' →
    Coded site n (chunk :: rest) (chunk.labels.map .label ++ code ++ others) n'

-- If there is a chunk that stores too little, the ones before the first such chunk have a shape.
theorem Emitted.coded_or_short (linked : site.method.Linked) (fit : site.method.CallsFit)
    {chunks : List Chunk} {items : List Item}
    (hsub : ∀ chunk ∈ chunks, chunk ∈ Chunk.ofInstructions site.method.instructions)
    (h : site.Emitted n chunks items n') :
    site.Coded n chunks items n' ∨
      ∃ first inst rest before code behind k,
        chunks = first ++ .single inst :: rest ∧ inst.statement.StoresCall ∧
        site.Coded n first before k ∧ site.Short code ∧
        items = before ++ (inst.labels.map .label ++ code) ++ behind := by
  induction h with
  | nil n => exact .inl (.nil n)
  | @cons n k n' chunk rest code others hcode _ ih =>
    rcases chunk_code linked fit (hsub chunk List.mem_cons_self) hcode with
      hshape | ⟨⟨inst, rfl, hstores⟩, hshort⟩
    · rcases ih fun other hother => hsub other (List.mem_cons_of_mem _ hother) with
        hrest | ⟨first, inst, last, before, short, behind, k', rfl, hstores, hfirst, hshort, rfl⟩
      · exact .inl (.cons hshape hrest)
      · refine .inr ⟨chunk :: first, inst, last, _, short, behind, k', rfl, hstores,
          .cons hshape hfirst, hshort, ?_⟩
        simp only [List.append_assoc]
    · exact .inr ⟨[], inst, rest, [], code, others, n, rfl, hstores, .nil n, hshort, rfl⟩

-- ---------------------------------------------------------------------------
-- Registers
-- ---------------------------------------------------------------------------

theorem mem_ops {row : List StackOp} {op : StackOp} : .op op ∈ ops row ↔ op ∈ row := by
  simp [ops]

theorem Pushes.within {items : List Item} {count : Nat} (h : site.Pushes items count) {op : StackOp}
    (hop : .op op ∈ items) : op.Within site.method.maxLocals := by
  obtain ⟨row, rfl, -, within⟩ := h
  exact within op (mem_ops.mp hop)

theorem Pushes.within_snoc {items : List Item} {count : Nat} {last : StackOp}
    (h : site.Pushes items count) (hlast : last.Within site.method.maxLocals) {op : StackOp}
    (hop : .op op ∈ items ++ ops [last]) : op.Within site.method.maxLocals := by
  rcases List.mem_append.mp hop with hop | hop
  · exact h.within hop
  · obtain rfl : op = last := by simpa [mem_ops] using hop
    exact hlast

theorem Code.within {items : List Item} (h : site.Code n items n') {op : StackOp}
    (hop : .op op ∈ items) : op.Within site.method.maxLocals := by
  cases h with
  | straight hpushes => exact hpushes.within hop
  | jump hjumps _ =>
    obtain ⟨loaded, last, rfl, hloaded, -, -, -, hregister⟩ := hjumps
    exact hloaded.within_snoc (StackOp.within_of_none hregister) hop
  | leave hreturns =>
    obtain ⟨loaded, last, rfl, hloaded, -, -, -, hregister⟩ := hreturns
    exact hloaded.within_snoc (StackOp.within_of_none hregister) hop
  | comparison hbefore hjumps _ _ _ within =>
    obtain ⟨loaded, last, rfl, hloaded, -, -, -, hregister⟩ := hjumps
    rcases List.mem_append.mp hop with hop | hop
    · rcases List.mem_append.mp hop with hop | hop
      · exact hbefore.within hop
      · rcases List.mem_append.mp hop with hop | hop
        · exact hloaded.within_snoc (StackOp.within_of_none hregister) hop
        · have hnone : op.register? = none := by
            simp only [verdict, List.mem_cons, Item.op.injEq, reduceCtorEq, List.not_mem_nil,
              or_false, false_or] at hop
            rcases hop with rfl | rfl | rfl <;> rfl
          exact StackOp.within_of_none hnone
    · obtain rfl := by simpa [mem_ops] using hop
      exact within

theorem Coded.within {chunks : List Chunk} {items : List Item} (h : site.Coded n chunks items n')
    {op : StackOp} (hop : .op op ∈ items) : op.Within site.method.maxLocals := by
  induction h with
  | nil n => cases hop
  | cons hcode _ ih =>
    simp only [List.mem_append, List.mem_map, reduceCtorEq, and_false, exists_false, false_or] at hop
    rcases hop with hop | hop
    · exact hcode.within hop
    · exact ih hop

end Site

end ThreeAddress
