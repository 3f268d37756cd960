import ThreeAddress.Proofs.OwnLabels

/-!
# How far a chunk shifts the stack

`Chunk.drift` says by how much the code of a chunk changes the number of values on the stack. It is zero
but for three forms: a call of `arraylength` that is said to return nothing, a fused constructor that is
said to return something, and the assignment of a call that returns nothing. `Site.chunk_shape` is the
main statement: the code of every chunk has one of the shapes of `Site.Code` and no drift, or it is a row
of plain instructions whose effects add up to the drift. Nothing is asked of the calls.
-/

namespace ThreeAddress

/-- By how much the instruction changes the number of values on the stack. -/
def StackOp.net (op : StackOp) : Int := (op.pushes : Int) - op.pops

/-- By how much a row of instructions changes it. -/
def netOf : List StackOp → Int
  | [] => 0
  | op :: rest => op.net + netOf rest

theorem netOf_append (first second : List StackOp) :
    netOf (first ++ second) = netOf first + netOf second := by
  induction first with
  | nil => simp [netOf]
  | cons op rest ih => rw [List.cons_append, netOf, netOf, ih, Int.add_assoc]

theorem netOf_single (op : StackOp) : netOf [op] = op.net :=
  Int.add_zero _

theorem Straight.netOf {row : List StackOp} {depth after : Nat} (h : Straight row depth after) :
    ThreeAddress.netOf row = (after : Int) - depth := by
  induction h with
  | nil => simp [ThreeAddress.netOf]
  | cons _ hpops _ ih =>
    rw [ThreeAddress.netOf, ih, StackOp.net]
    omega

def Statement.drift : Statement → Int
  -- The length is pushed, and not dropped as nothing is said to be returned.
  | .call c => if c.ret = .void ∧ c.invocation = .arrayLength then 1 else 0
  -- The store takes a value that the call does not leave.
  | .assign _ _ (.call c) => if c.ret = .void ∧ c.invocation ≠ .arrayLength then -1 else 0
  | _ => 0

def Chunk.drift : Chunk → Int
  | .single inst => inst.statement.drift
  -- What a constructor returns is not dropped if its call is fused with the creation.
  | .fused _ construction => if construction.init.ret = .void then 0 else 1

theorem Statement.drift_eq_zero {statement : Statement} (hcall : ∀ call, statement ≠ .call call)
    (hstore : ¬ statement.StoresCall) : statement.drift = 0 := by
  unfold drift
  split
  · next c => exact absurd rfl (hcall c)
  · next dest ty c => exact absurd ⟨dest, ty, c, rfl⟩ hstore
  · rfl

namespace Site

/-- The items are a row of plain instructions with the given effect. -/
def Shifts (items : List Item) (shift : Int) : Prop :=
  ∃ row, items = ops row ∧ (∀ op ∈ row, op.Plain) ∧ netOf row = shift

variable {site : Site} {n n' : Nat}

theorem Pushes.shifts {items : List Item} {count : Nat} (h : site.Pushes items count) :
    Shifts items count := by
  obtain ⟨row, rfl, straight, -⟩ := h
  refine ⟨row, rfl, fun op => (straight 0).plain, ?_⟩
  rw [(straight 0).netOf]
  omega

theorem Shifts.append {first second : List Item} {a b : Int} (h : Shifts first a)
    (h' : Shifts second b) : Shifts (first ++ second) (a + b) := by
  obtain ⟨row, rfl, plain, rfl⟩ := h
  obtain ⟨row', rfl, plain', rfl⟩ := h'
  refine ⟨row ++ row', (ops_append row row').symm, fun op hop => ?_, netOf_append row row'⟩
  exact (List.mem_append.mp hop).elim (plain op) (plain' op)

theorem shifts_op {op : StackOp} (plain : op.Plain) : Shifts (ops [op]) op.net := by
  refine ⟨[op], rfl, fun other hother => ?_, netOf_single op⟩
  rw [List.mem_singleton.mp hother]
  exact plain

theorem call_shifts {call : Call} {items : List Item}
    (h : site.statement (.call call) n = (.ok items, n')) :
    n' = n ∧ Shifts items (Statement.call call).drift := by
  simp only [Site.statement, Emit.bind_ok, Emit.lift_ok, Emit.pure_ok] at h
  obtain ⟨called, _, ⟨hcall, rfl⟩, rfl, rfl⟩ := h
  refine ⟨rfl, ?_⟩
  have hpushes := (call_pushes hcall).shifts
  unfold callPushes at hpushes
  unfold Statement.drift
  by_cases hvoid : call.ret = .void
  · rw [if_pos (Ty.isVoid_iff.mpr hvoid)]
    by_cases hlength : call.invocation = .arrayLength
    · simpa [hvoid, hlength] using hpushes
    · simpa [hvoid, hlength] using hpushes
  · rw [if_neg fun h => hvoid (Ty.isVoid_iff.mp h)]
    have hpop : Shifts (ops [.pop]) (-1) := shifts_op ⟨rfl, rfl⟩
    simpa [hvoid] using hpushes.append hpop

theorem increment?_call {dest : Element} {call : Call} : site.increment? dest (.call call) = none := by
  unfold increment?
  split
  · next heq => cases heq
  · rfl

theorem storedCall_shifts {dest : Element} {ty : Ty} {call : Call} {items : List Item}
    (h : site.statement (.assign dest ty (.call call)) n = (.ok items, n')) :
    n' = n ∧ Shifts items (Statement.assign dest ty (.call call)).drift := by
  simp only [Site.statement, assign, increment?_call, Site.value, Emit.bind_ok, Emit.lift_ok,
    Emit.pure_ok] at h
  obtain ⟨⟨before, store⟩, _, ⟨hplace, rfl⟩, stored, _, ⟨hcall, rfl⟩, rfl, rfl⟩ := h
  refine ⟨rfl, ?_⟩
  obtain ⟨below, hbefore, plain, hpops, hpushes, -⟩ := place_pushes hplace
  have hall := (hbefore.shifts.append (call_pushes hcall).shifts).append (shifts_op plain)
  have hshift : (below : Int) + (callPushes call : Nat) + store.net
      = (Statement.assign dest ty (.call call)).drift := by
    simp only [StackOp.net, hpops, hpushes, callPushes, Statement.drift]
    split <;> omega
  exact hshift ▸ hall

theorem construction_shifts {construction : Construction} {items : List Item}
    (h : site.construction construction = .ok items) :
    Shifts items (if construction.init.ret = .void then 0 else 1) := by
  unfold Site.construction at h
  simp only [ThreeAddress.bind_ok] at h
  obtain ⟨⟨before, store⟩, hplace, owner, -, invoked, hinvoked, h⟩ := h
  cases h
  obtain ⟨below, hbefore, plain, hpops, hpushes, -⟩ := place_pushes hplace
  have hnew : site.Pushes (ops [.new owner]) 1 :=
    pushes_one ⟨rfl, rfl⟩ rfl rfl (StackOp.within_of_none rfl)
  have hdup : site.Pushes (ops [.new owner] ++ ops [.dup]) 2 :=
    hnew.snoc ⟨rfl, rfl⟩ (Nat.le_refl 1) (StackOp.within_of_none rfl) rfl
  have hinvoke := invoke_pushes (n := 1) hdup hinvoked rfl
  have hall := (hbefore.shifts.append hinvoke.shifts).append (shifts_op plain)
  have hshift : (below : Int) + ((1 + if construction.init.ret = .void then 0 else 1 : Nat) : Int)
      + store.net = if construction.init.ret = .void then 0 else 1 := by
    simp only [StackOp.net, hpops, hpushes]
    split <;> omega
  rw [hshift] at hall
  simpa [ops] using hall

theorem chunk_shape (linked : site.method.Linked) {chunk : Chunk} {code : List Item}
    (hmem : chunk ∈ Chunk.ofInstructions site.method.instructions)
    (h : site.chunk chunk n = (.ok code, n')) :
    site.Code n code n' ∧ chunk.drift = 0 ∨ n' = n ∧ Shifts code chunk.drift := by
  cases chunk with
  | single inst =>
    have hinst := Chunk.mem_of_single hmem
    simp only [Site.chunk] at h
    simp only [Chunk.drift]
    by_cases hcall : ∃ call, inst.statement = .call call
    · obtain ⟨call, hcall⟩ := hcall
      rw [hcall] at h ⊢
      exact .inr (call_shifts h)
    · by_cases hstore : inst.statement.StoresCall
      · obtain ⟨dest, ty, call, hassign⟩ := hstore
        rw [hassign] at h ⊢
        exact .inr (storedCall_shifts h)
      · have hnone : ∀ call, inst.statement ≠ .call call := fun call heq => hcall ⟨call, heq⟩
        have hcode := statement_code linked (fun _ => linked.label?_of_jump hinst)
          (fun call heq => absurd heq (hnone call)) h
        exact .inl ⟨hcode.resolve_right fun hshort => hstore hshort.1,
          Statement.drift_eq_zero hnone hstore⟩
  | fused inst construction =>
    obtain ⟨hitems, rfl⟩ := Emit.lift_ok.mp h
    exact .inr ⟨rfl, construction_shifts hitems⟩

-- ---------------------------------------------------------------------------
-- Labels and targets of any chunk
-- ---------------------------------------------------------------------------

theorem Shifts.target {items : List Item} {shift : Int} (h : Shifts items shift) {op : StackOp}
    (hop : .op op ∈ items) : op.target? = none := by
  obtain ⟨row, rfl, plain, -⟩ := h
  exact (plain op (mem_ops.mp hop)).1

/-- A jump goes to a label of the method or to one in the code of the same chunk. -/
theorem chunk_target (linked : site.method.Linked) {chunk : Chunk} {code : List Item}
    (hmem : chunk ∈ Chunk.ofInstructions site.method.instructions)
    (h : site.chunk chunk n = (.ok code, n')) {op : StackOp} {label : String} (hop : .op op ∈ code)
    (htarget : op.target? = some label) :
    (∃ id, site.method.label? label = some id) ∨ label ∈ labelsOf code := by
  rcases chunk_shape linked hmem h with ⟨hcode, -⟩ | ⟨-, hrow⟩
  · exact hcode.target hop htarget
  · cases (hrow.target hop).symm.trans htarget

theorem Emitted.target (linked : site.method.Linked) {chunks : List Chunk} {items : List Item}
    (hsub : ∀ chunk ∈ chunks, chunk ∈ Chunk.ofInstructions site.method.instructions)
    (h : site.Emitted n chunks items n') {op : StackOp} {label : String} (hop : .op op ∈ items)
    (htarget : op.target? = some label) :
    (∃ id, site.method.label? label = some id) ∨ label ∈ labelsOf items := by
  induction h with
  | nil n => cases hop
  | cons hcode _ ih =>
    obtain ⟨hchunk, hrest⟩ := List.forall_mem_cons.mp hsub
    simp only [labelsOf_append, labelsOf_map_label, List.mem_append, List.mem_map, reduceCtorEq,
      and_false, exists_false, false_or] at hop ⊢
    rcases hop with hop | hop
    · exact (chunk_target linked hchunk hcode hop htarget).imp_right fun hlabel => .inl (.inr hlabel)
    · exact (ih hrest hop).imp_right .inr

theorem Emitted.label_mem {chunks : List Chunk} {items : List Item} (h : site.Emitted n chunks items n')
    {label : String} (hlabel : label ∈ chunks.flatMap Chunk.labels) : label ∈ labelsOf items := by
  induction h with
  | nil n => cases hlabel
  | cons _ _ ih =>
    simp only [labelsOf_append, labelsOf_map_label, List.mem_append]
    rcases List.mem_append.mp hlabel with hlabel | hlabel
    · exact .inl (.inl hlabel)
    · exact .inr (ih hlabel)

end Site

end ThreeAddress
