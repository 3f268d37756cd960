import ThreeAddress.Proofs.DirectRun

/-!
# Lowered scalar code does what it stands for

The machine runs the code of each part of a scalar statement to the value that the part has directly:
loads, arithmetic, jumps on comparisons, comparisons as values, increments, and branches. The code may
stand anywhere in a body, as long as no label of the body stands twice.
-/

namespace ThreeAddress

open Relation (TransGen ReflTransGen)

namespace Machine

/-- The machine gets on to where the word is made use of, or traps. -/
def Yields (body : List Item) (machine : Machine) (result : Evaluated) (after : Int32 → Machine) :
    Prop :=
  match result with
  | .word word => TransGen (Goes (step body)) machine (after word)
  | .trap => Halts (step body) machine ⟨.trap, machine.registers⟩

variable {body rest : List Item} {machine middle : Machine} {result : Evaluated}
  {after after' : Int32 → Machine} {stack : List Int32} {registers : Nat → Int32}

theorem Yields.of_goes (h : ReflTransGen (Goes (step body)) machine middle)
    (hsame : machine.registers = middle.registers) (yields : Yields body middle result after) :
    Yields body machine result after := by
  cases result with
  | word word => exact TransGen.trans_right h yields
  | trap =>
    have halts : Halts (step body) middle ⟨.trap, middle.registers⟩ := yields
    show Halts (step body) machine ⟨.trap, machine.registers⟩
    rw [hsame]
    exact halts.of_goes h

theorem Yields.andThen (yields : Yields body machine result after)
    (h : ∀ word, ReflTransGen (Goes (step body)) (after word) (after' word)) :
    Yields body machine result after' := by
  cases result with
  | word word => exact TransGen.trans_left yields (h word)
  | trap => exact yields

theorem step_intConstant (value : Int32) :
    step body ⟨.op (intConstant value) :: rest, stack, registers⟩
      = .next ⟨rest, value :: stack, registers⟩ := by
  unfold intConstant
  split
  · rfl
  · split
    · rfl
    · split <;> rfl

end Machine

-- ---------------------------------------------------------------------------
-- Operators
-- ---------------------------------------------------------------------------

theorem literalValue_ok {value : Literal} {ty : Ty} {number : Int32}
    (h : literalValue value ty = .ok number) : value.word = number := by
  unfold literalValue at h
  split at h
  · cases h
    rfl
  · split at h
    · cases h
      rfl
    · cases h
  · cases h
    rfl
  · cases h

theorem Element.word_of_isZero {element : Element} {values : String → Option Int32} {word : Int32}
    (hzero : element.isZero = true) (hword : element.word? values = some word) : word = 0 := by
  cases element with
  | literal value ty =>
    cases hword
    cases value with
    | int value => exact beq_iff_eq.mp hzero
    | bool value =>
      cases value with
      | false => rfl
      | true => cases hzero
  | operand name ty => cases hzero
  | slot name index ty => cases hzero

namespace Operator

variable {op : Operator} {comparison turned : Comparison}

theorem evaluate?_of_comparison (h : op.comparison? = some comparison) (a b : Int32) :
    op.evaluate? a b = some (.truth (comparison.holds a b)) := by
  cases op <;> cases h <;> rfl

theorem holds_swapped (h : op.comparison? = some comparison)
    (hswapped : op.swapped.comparison? = some turned) (a b : Int32) :
    turned.holds b a = comparison.holds a b := by
  cases op <;> cases h <;> cases hswapped <;> simp [Comparison.holds, bne, Bool.beq_comm]

theorem yields_arithmeticOp {body rest : List Item} {stack : List Int32} {registers : Nat → Int32}
    {machineOp : StackOp} {a b : Int32} {result : Evaluated} (h : op.arithmeticOp? = some machineOp)
    (hresult : op.evaluate? a b = some result) :
    Machine.Yields body ⟨.op machineOp :: rest, b :: a :: stack, registers⟩ result
      fun word => ⟨rest, word :: stack, registers⟩ := by
  cases op <;> cases h <;> cases hresult
  case div =>
    by_cases hzero : b = 0
    · rw [if_pos hzero]
      exact halts_of_done ((Machine.step_idiv a b).trans (if_pos hzero))
    · rw [if_neg hzero]
      exact .single ((Machine.step_idiv a b).trans (if_neg hzero))
  all_goals exact .single rfl

end Operator

-- ---------------------------------------------------------------------------
-- Values
-- ---------------------------------------------------------------------------

namespace Site

open Machine (step Yields)

variable {site : Site} {body rest code : List Item} {stack : List Int32}
  {registers : Nat → Int32} {n k : Nat}

theorem load_operand {name : String} {ty : Ty} (h : ty.isClassRef = false) :
    site.load (.operand name ty) = site.loadVariable name ty := by
  cases ty <;> simp [Ty.isClassRef, load] at h ⊢

theorem load_goes {element : Element} {word : Int32} (scalar : element.isScalar = true)
    (h : site.load element = .ok code)
    (hword : element.word? (site.method.values registers) = some word) :
    TransGen (Goes (step body)) ⟨code ++ rest, stack, registers⟩
      ⟨rest, word :: stack, registers⟩ := by
  cases element with
  | literal value ty =>
    obtain ⟨number, hnumber, h⟩ := bind_ok.mp h
    cases h
    cases hword
    rw [literalValue_ok hnumber]
    exact .single (Machine.step_intConstant number)
  | operand name ty =>
    have hload : site.loadVariable name ty = .ok code := by
      rw [← load_operand (Ty.isClassRef_of_isScalar scalar)]
      exact h
    unfold loadVariable at hload
    obtain ⟨register, hregister, rfl⟩ := Option.map_eq_some_iff.mp hword
    rw [hregister] at hload
    simp only [Ty.category_of_isScalar scalar] at hload
    cases hload
    exact .single rfl
  | slot name index ty => cases scalar

theorem load_both_goes {left right : Element} {first second : List Item} {a b : Int32}
    (hleft : left.isScalar = true) (hright : right.isScalar = true)
    (hfirst : site.load left = .ok first) (hsecond : site.load right = .ok second)
    (ha : left.word? (site.method.values registers) = some a)
    (hb : right.word? (site.method.values registers) = some b) :
    TransGen (Goes (step body)) ⟨first ++ second ++ rest, stack, registers⟩
      ⟨rest, b :: a :: stack, registers⟩ := by
  rw [List.append_assoc]
  exact (load_goes hleft hfirst ha).trans (load_goes hright hsecond hb)

theorem words_of_binary {binary : Binary} {values : String → Option Int32} {result : Evaluated}
    (h : binary.evaluate? values = some result) :
    ∃ a b, binary.left.word? values = some a ∧ binary.right.word? values = some b ∧
      binary.op.evaluate? a b = some result := by
  simp only [Binary.evaluate?, Option.bind_eq_bind, Option.bind_eq_some_iff] at h
  obtain ⟨a, ha, b, hb, hresult⟩ := h
  exact ⟨a, b, ha, hb, hresult⟩

theorem arithmetic_yields {binary : Binary} {result : Evaluated} (scalar : binary.isScalar = true)
    (h : site.arithmetic binary = .ok code)
    (hresult : binary.evaluate? (site.method.values registers) = some result) :
    Yields body ⟨code ++ rest, stack, registers⟩ result
      fun word => ⟨rest, word :: stack, registers⟩ := by
  simp only [Binary.isScalar, Bool.and_eq_true] at scalar
  obtain ⟨⟨-, hleft⟩, hright⟩ := scalar
  obtain ⟨a, b, ha, hb, hop⟩ := words_of_binary hresult
  unfold arithmetic at h
  split at h
  · cases h
  · next machineOp hmachineOp =>
    simp only [bind_ok] at h
    obtain ⟨first, hfirst, second, hsecond, h⟩ := h
    cases h
    rw [List.append_assoc]
    refine Yields.of_goes
      (load_both_goes hleft hright hfirst hsecond ha hb).to_reflTransGen rfl ?_
    exact Operator.yields_arithmeticOp hmachineOp hop

/-- A comparison with zero leaves the zero out, and is turned round if the zero is on the left. -/
theorem compareJump_goes {binary : Binary} {target : String} {result : Evaluated}
    (scalar : binary.isScalar = true) (h : site.compareJump binary target = .ok code)
    (hresult : binary.evaluate? (site.method.values registers) = some result) :
    ∃ holds, result = .truth holds ∧
      TransGen (Goes (step body)) ⟨code ++ rest, stack, registers⟩
        ⟨if holds then landing body target else rest, stack, registers⟩ := by
  simp only [Binary.isScalar, Bool.and_eq_true] at scalar
  obtain ⟨⟨-, hleft⟩, hright⟩ := scalar
  obtain ⟨a, b, ha, hb, hop⟩ := words_of_binary hresult
  unfold compareJump at h
  split at h
  · next comparison turned hcomparison hturned =>
    rw [Operator.evaluate?_of_comparison hcomparison] at hop
    cases hop
    refine ⟨_, rfl, ?_⟩
    split at h
    · next hzero =>
      obtain ⟨loaded, hload, h⟩ := bind_ok.mp h
      cases h
      rw [List.append_assoc, Element.word_of_isZero hzero hb]
      exact (load_goes hleft hload ha).tail rfl
    · split at h
      · next hzero =>
        obtain ⟨loaded, hload, h⟩ := bind_ok.mp h
        cases h
        rw [List.append_assoc, ← Operator.holds_swapped hcomparison hturned,
          Element.word_of_isZero hzero ha]
        exact (load_goes hright hload hb).tail rfl
      · simp only [bind_ok] at h
        obtain ⟨first, hfirst, second, hsecond, h⟩ := h
        cases h
        rw [List.append_assoc]
        exact (load_both_goes hleft hright hfirst hsecond ha hb).tail rfl
  · cases h

theorem verdict_goes (unique : (labelsOf body).Nodup) (hsuffix : verdict n ++ rest <:+ body)
    (holds : Bool) :
    TransGen (Goes (step body))
      ⟨if holds then landing body (holdsLabel n) else verdict n ++ rest, stack, registers⟩
      ⟨rest, (if holds then 1 else 0) :: stack, registers⟩ := by
  have hend : landing body (endLabel n) = .label (endLabel n) :: rest :=
    landing_of_nodup unique (((List.suffix_append [_, _, _, _] _).trans hsuffix :))
  have hholds : landing body (holdsLabel n)
      = .label (holdsLabel n) :: .op (.iconst 1) :: .label (endLabel n) :: rest :=
    landing_of_nodup unique (((List.suffix_append [_, _] _).trans hsuffix :))
  cases holds with
  | true =>
    rw [if_pos rfl, hholds]
    exact .head rfl (.head rfl (.single rfl))
  | false =>
    have hgoto : Goes (step body) ⟨.op (.goto (endLabel n)) :: .label (holdsLabel n) ::
        .op (.iconst 1) :: .label (endLabel n) :: rest, 0 :: stack, registers⟩
        ⟨.label (endLabel n) :: rest, 0 :: stack, registers⟩ := by
      rw [← hend]
      rfl
    exact .head rfl (.head hgoto (.single rfl))

theorem value_yields {rhs : Statement} {result : Evaluated} (scalar : rhs.isScalarValue = true)
    (unique : (labelsOf body).Nodup) (hsuffix : code ++ rest <:+ body)
    (h : site.value rhs n = (.ok code, k))
    (hresult : rhs.evaluate? (site.method.values registers) = some result) :
    Yields body ⟨code ++ rest, stack, registers⟩ result
      fun word => ⟨rest, word :: stack, registers⟩ := by
  cases rhs with
  | element e =>
    obtain ⟨hload, -⟩ := Emit.lift_ok.mp h
    obtain ⟨word, hword, rfl⟩ := Option.map_eq_some_iff.mp hresult
    exact load_goes scalar hload hword
  | unary u =>
    obtain ⟨hop, hoperand⟩ := (Bool.and_eq_true _ _).mp scalar
    rw [Statement.evaluate?, if_pos (beq_iff_eq.mp hop)] at hresult
    obtain ⟨word, hword, rfl⟩ := Option.map_eq_some_iff.mp hresult
    obtain ⟨hunary, -⟩ := Emit.lift_ok.mp h
    rw [Site.unary, if_pos (beq_iff_eq.mp hop)] at hunary
    obtain ⟨loaded, hload, hunary⟩ := bind_ok.mp hunary
    cases hunary
    rw [List.append_assoc]
    exact (load_goes hoperand hload hword).trans (.head rfl (.single rfl))
  | binary b =>
    change site.binary b n = _ at h
    unfold Site.binary at h
    split at h
    · obtain ⟨-, jump, hjump, rfl⟩ := comparison_ok h
      rw [List.append_assoc] at hsuffix ⊢
      obtain ⟨holds, rfl, hgoes⟩ := compareJump_goes scalar hjump hresult
      exact hgoes.trans (verdict_goes unique ((List.suffix_append jump _).trans hsuffix) holds)
    · obtain ⟨harithmetic, -⟩ := Emit.lift_ok.mp h
      exact arithmetic_yields scalar harithmetic hresult
  | _ => cases scalar

-- ---------------------------------------------------------------------------
-- Statements
-- ---------------------------------------------------------------------------

theorem word_of_isIntIn {element : Element} {register : Nat}
    (h : site.isIntIn register element = true) :
    element.word? (site.method.values registers) = some (registers register) := by
  unfold isIntIn at h
  split at h
  · rw [Element.word?, Method.values, beq_iff_eq.mp h]
    rfl
  · cases h

theorem word_of_intLiteral? {element : Element} {amount : Int32} {values : String → Option Int32}
    (h : element.intLiteral? = some amount) : element.word? values = some amount := by
  unfold Element.intLiteral? at h
  split at h
  · cases h
    rfl
  · cases h

/-- An assignment that is lowered to an increment adds to what is in the register. The variable that is
read may be another one than the variable written, if they share the register. -/
theorem increment?_evaluates {name : String} {ty : Ty} {rhs : Statement} {register : Nat}
    {amount : Int32} (h : site.increment? (.operand name ty) rhs = some (register, amount)) :
    site.method.register? name = some register ∧
      rhs.evaluate? (site.method.values registers) = some (.word (registers register + amount)) := by
  unfold increment? at h
  split at h
  · next hdest =>
    cases hdest
    simp only [Option.bind_eq_bind, Option.bind_eq_some_iff] at h
    obtain ⟨found, hfound, amount', hamount, hrange⟩ := h
    split at hrange
    · cases hrange
      refine ⟨hfound, ?_⟩
      unfold Binary.increment? at hamount
      simp only [Statement.evaluate?, Binary.evaluate?]
      split at hamount
      · next hop =>
        rw [hop]
        split at hamount
        · next hleft =>
          rw [word_of_isIntIn hleft, word_of_intLiteral? hamount]
          rfl
        · split at hamount
          · next hright =>
            rw [word_of_isIntIn hright, word_of_intLiteral? hamount, Int32.add_comm]
            rfl
          · cases hamount
      · next hop =>
        rw [hop]
        split at hamount
        · next hleft =>
          obtain ⟨literal, hliteral, rfl⟩ := Option.map_eq_some_iff.mp hamount
          rw [word_of_isIntIn hleft, word_of_intLiteral? hliteral, ← Int32.sub_eq_add_neg]
          rfl
        · cases hamount
      · cases hamount
    · cases hrange
  · cases h

theorem place_operand {name : String} {ty : Ty} {register : Nat} (scalar : ty.isScalar = true)
    (h : site.method.register? name = some register) :
    site.place (.operand name ty) = .ok ([], .istore register) := by
  cases ty <;> simp [Ty.isScalar, place, h, Ty.category] at scalar ⊢

theorem assign_yields {name : String} {ty : Ty} {rhs : Statement} {register : Nat}
    {result : Evaluated} (hty : ty.isScalar = true) (hrhs : rhs.isScalarValue = true)
    (unique : (labelsOf body).Nodup) (hsuffix : code ++ rest <:+ body)
    (hregister : site.method.register? name = some register)
    (h : site.assign (.operand name ty) rhs n = (.ok code, k))
    (hresult : rhs.evaluate? (site.method.values registers) = some result) :
    Yields body ⟨code ++ rest, [], registers⟩ result
      fun word => ⟨rest, [], Function.update registers register word⟩ := by
  unfold assign at h
  cases hincrement : site.increment? (.operand name ty) rhs with
  | some increment =>
    obtain ⟨found, amount⟩ := increment
    rw [hincrement] at h
    obtain ⟨rfl, -⟩ := Emit.pure_ok.mp h
    obtain ⟨hfound, hevaluates⟩ := increment?_evaluates hincrement
    cases hregister.symm.trans hfound
    cases hresult.symm.trans hevaluates
    exact .single rfl
  | none =>
    rw [hincrement] at h
    simp only [place_operand hty hregister, Emit.bind_ok, Emit.lift_ok, Emit.pure_ok] at h
    obtain ⟨_, _, ⟨hplace, rfl⟩, stored, _, hvalue, rfl, -⟩ := h
    cases hplace
    rw [List.nil_append, List.append_assoc] at hsuffix ⊢
    exact (value_yields hrhs unique hsuffix hvalue hresult).andThen fun _ => .single rfl

/-- Where a branch leads. -/
def afterBranch (body rest : List Item) (target : String) (registers : Nat → Int32) (word : Int32) :
    Machine :=
  ⟨if word = 0 then rest else landing body target, [], registers⟩

theorem goes_ifZero_ne {target : String} {word : Int32} :
    Goes (step body) ⟨.op (.ifZero .ne target) :: rest, [word], registers⟩
      (afterBranch body rest target registers word) := by
  unfold Goes afterBranch
  rw [Machine.step_ifZero]
  by_cases hzero : word = 0 <;> simp [Comparison.holds, hzero]

theorem afterBranch_truth {target : String} (holds : Bool) :
    afterBranch body rest target registers (if holds then 1 else 0)
      = ⟨if holds then landing body target else rest, [], registers⟩ := by
  cases holds <;> simp [afterBranch]

theorem branchTo_yields {condition : Condition} {target : String} {result : Evaluated}
    (scalar : condition.isScalar = true) (h : site.branchTo condition target n = (.ok code, k))
    (hresult : condition.evaluate? (site.method.values registers) = some result) :
    Yields body ⟨code ++ rest, [], registers⟩ result (afterBranch body rest target registers) := by
  cases condition with
  | single e =>
    simp only [branchTo, Emit.bind_ok, Emit.lift_ok, Emit.pure_ok] at h
    obtain ⟨loaded, _, ⟨hload, -⟩, rfl, -⟩ := h
    obtain ⟨word, hword, rfl⟩ := Option.map_eq_some_iff.mp hresult
    rw [List.append_assoc]
    exact (load_goes scalar hload hword).tail goes_ifZero_ne
  | unary u =>
    obtain ⟨hop, hoperand⟩ := (Bool.and_eq_true _ _).mp scalar
    rw [Condition.evaluate?, if_pos (beq_iff_eq.mp hop)] at hresult
    obtain ⟨word, hword, rfl⟩ := Option.map_eq_some_iff.mp hresult
    simp only [branchTo, if_pos (beq_iff_eq.mp hop), Emit.bind_ok, Emit.lift_ok, Emit.pure_ok] at h
    obtain ⟨loaded, _, ⟨hload, -⟩, rfl, -⟩ := h
    rw [List.append_assoc]
    refine (load_goes hoperand hload hword).tail ?_
    rw [afterBranch_truth]
    rfl
  | binary b =>
    simp only [branchTo] at h
    split at h
    · obtain ⟨hjump, -⟩ := Emit.lift_ok.mp h
      obtain ⟨holds, rfl, hgoes⟩ := compareJump_goes scalar hjump hresult
      show TransGen _ _ (afterBranch body rest target registers (if holds then 1 else 0))
      rw [afterBranch_truth]
      exact hgoes
    · next notComparison =>
      simp only [Site.binary, notComparison, Bool.false_eq_true, if_false, Emit.bind_ok,
        Emit.lift_ok, Emit.pure_ok] at h
      obtain ⟨loaded, _, ⟨harithmetic, -⟩, rfl, -⟩ := h
      rw [List.append_assoc]
      exact (arithmetic_yields scalar harithmetic hresult).andThen fun _ => .single goes_ifZero_ne

theorem ret_none_ok {ty : Ty} : site.ret none ty = .ok code ↔ ty = .void ∧ code = ops [.ret] := by
  cases ty <;> simp [Site.ret, Ty.category, eq_comm]

theorem ret_halts {value : Element} {ty : Ty} {word : Int32} (hty : ty.isScalar = true)
    (hvalue : value.isScalar = true) (h : site.ret (some value) ty = .ok code)
    (hword : value.word? (site.method.values registers) = some word) :
    Halts (step body) ⟨code ++ rest, [], registers⟩ ⟨.value word, registers⟩ := by
  simp only [Site.ret, Ty.category_of_isScalar hty] at h
  obtain ⟨loaded, hload, h⟩ := bind_ok.mp h
  cases h
  rw [List.append_assoc]
  refine Halts.of_goes (load_goes hvalue hload hword).to_reflTransGen ?_
  exact halts_of_done rfl

end Site

-- The last item tells whether control gets past the code.
theorem Site.statement_last {site : Site} {n k : Nat} {statement : Statement} {code : List Item}
    (scalar : statement.isScalar = true) (h : site.statement statement n = (.ok code, k)) :
    ∃ before op, code = before ++ ops [op] ∧ op.isTerminator = statement.leaves := by
  cases statement with
  | assign dest ty rhs =>
    change site.assign dest rhs n = _ at h
    unfold assign at h
    cases hincrement : site.increment? dest rhs with
    | some increment =>
      rw [hincrement] at h
      obtain ⟨rfl, -⟩ := Emit.pure_ok.mp h
      exact ⟨[], _, rfl, rfl⟩
    | none =>
      rw [hincrement] at h
      simp only [Emit.bind_ok, Emit.lift_ok, Emit.pure_ok] at h
      obtain ⟨⟨before, store⟩, _, ⟨hplace, -⟩, stored, _, -, rfl, -⟩ := h
      obtain ⟨_, -, plain, -⟩ := place_pushes hplace
      exact ⟨before ++ stored, store, rfl, plain.2⟩
  | goto label =>
    simp only [Site.statement, Emit.bind_ok, Emit.lift_ok, Emit.pure_ok] at h
    obtain ⟨target, _, -, rfl, -⟩ := h
    exact ⟨[], _, rfl, rfl⟩
  | branch condition label =>
    simp only [Site.statement, Emit.bind_ok, Emit.lift_ok] at h
    obtain ⟨target, _, -, hbranch⟩ := h
    obtain ⟨-, loaded, op, rfl, -, -, hthrough, -⟩ := branchTo_jumps hbranch
    exact ⟨loaded, op, rfl, hthrough⟩
  | ret value? ty =>
    obtain ⟨hret, -⟩ := Emit.lift_ok.mp h
    obtain ⟨loaded, op, rfl, -, -, hleaves, -⟩ := ret_returns hret
    exact ⟨loaded, op, rfl, hleaves⟩
  | _ => cases scalar

end ThreeAddress
