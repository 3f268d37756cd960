import ThreeAddress.Proofs.Machine
import ThreeAddress.Proofs.PlacedRun

/-!
# Running scalar methods directly

What the statements of a method over numbers and truth values mean, without any lowering: the
instructions are walked along their successors, and every variable is read and written at its register.
Arithmetic wraps around and a division by zero is a trap. `Method.Scalar` marks off the methods that
this is about. In a method that declares its variables every evaluation comes to something.
-/

namespace ThreeAddress

/-- What an operation comes to. -/
inductive Evaluated where
  | word (word : Int32)
  | trap
  deriving DecidableEq, Repr

def Evaluated.truth (holds : Bool) : Evaluated := .word (if holds then 1 else 0)

def Literal.word : Literal → Int32
  | .int value => value
  | .bool value => if value then 1 else 0

def Element.word? (values : String → Option Int32) : Element → Option Int32
  | .literal value _ => some value.word
  | .operand name _ => values name
  | .slot .. => none

def Operator.evaluate? : Operator → Int32 → Int32 → Option Evaluated
  | .add, a, b => some (.word (a + b))
  | .sub, a, b => some (.word (a - b))
  | .mul, a, b => some (.word (a * b))
  | .div, a, b => some (if b = 0 then .trap else .word (a / b))
  | .and, a, b => some (.word (a &&& b))
  | .or, a, b => some (.word (a ||| b))
  | .lt, a, b => some (.truth (a < b))
  | .gt, a, b => some (.truth (b < a))
  | .le, a, b => some (.truth (a ≤ b))
  | .ge, a, b => some (.truth (b ≤ a))
  | .eq, a, b => some (.truth (a == b))
  | .ne, a, b => some (.truth (a != b))
  | .not, _, _ => none

def Binary.evaluate? (values : String → Option Int32) (binary : Binary) : Option Evaluated := do
  let left ← binary.left.word? values
  let right ← binary.right.word? values
  binary.op.evaluate? left right

/-- The value of a right-hand side. Negation changes the last bit. -/
def Statement.evaluate? (values : String → Option Int32) : Statement → Option Evaluated
  | .element e => (e.word? values).map .word
  | .unary u => if u.op = .not then (u.operand.word? values).map fun word => .word (word ^^^ 1) else none
  | .binary b => b.evaluate? values
  | _ => none

/-- A branch is taken if its condition comes to something other than zero. Negation is a comparison
with zero here. -/
def Condition.evaluate? (values : String → Option Int32) : Condition → Option Evaluated
  | .single e => (e.word? values).map .word
  | .unary u => if u.op = .not then (u.operand.word? values).map fun word => .truth (word == 0) else none
  | .binary b => b.evaluate? values

/-- What an instruction makes of the values of the variables. -/
inductive Decision where
  | stop (outcome : Outcome)
  | move (next : Successor)
  | write (name : String) (word : Int32) (next : Successor)

def Instruction.decide? (inst : Instruction) (values : String → Option Int32) : Option Decision :=
  match inst.statement, inst.successors with
  | .assign (.operand name _) _ rhs, [next] =>
    (rhs.evaluate? values).map fun
      | .word word => .write name word next
      | .trap => .stop .trap
  | .goto _, [next] => some (.move next)
  | .branch condition _, [target, next] =>
    (condition.evaluate? values).map fun
      | .word word => .move (if word = 0 then next else target)
      | .trap => .stop .trap
  | .ret none _, _ => some (.stop .void)
  | .ret (some value) _, _ => (value.word? values).map fun word => .stop (.value word)
  | _, _ => none

structure DirectState where
  position : Successor
  registers : Nat → Int32

namespace Method

def values (method : Method) (registers : Nat → Int32) (name : String) : Option Int32 :=
  (method.register? name).map registers

def performDirect (method : Method) (inst : Instruction) (registers : Nat → Int32) :
    Turn DirectState Final :=
  match inst.decide? (method.values registers) with
  | some (.stop outcome) => .done ⟨outcome, registers⟩
  | some (.move next) => .next ⟨next, registers⟩
  | some (.write name word next) =>
    match method.register? name with
    | some register => .next ⟨next, Function.update registers register word⟩
    | none => .stuck
  | none => .stuck

/-- One instruction. Behind the last one the method returns nothing. -/
def stepDirect (method : Method) (state : DirectState) : Turn DirectState Final :=
  match state.position with
  | .exit => .done ⟨.void, state.registers⟩
  | .instruction id =>
    match method.instruction? id with
    | some inst => method.performDirect inst state.registers
    | none => .stuck

end Method

-- ---------------------------------------------------------------------------
-- The scalar fragment
-- ---------------------------------------------------------------------------

def Ty.isScalar : Ty → Bool
  | .int32 | .boolean => true
  | _ => false

theorem Ty.isClassRef_of_isScalar {ty : Ty} (h : ty.isScalar = true) : ty.isClassRef = false := by
  cases ty <;> simp [isScalar, isClassRef] at h ⊢

theorem Ty.category_of_isScalar {ty : Ty} (h : ty.isScalar = true) : ty.category = .integer := by
  cases ty <;> simp [isScalar, category] at h ⊢

/-- A variable of a scalar type, or a literal that goes with its type. -/
def Element.isScalar : Element → Bool
  | .literal (.int _) .int32 | .literal (.bool _) .boolean => true
  | .literal (.int value) .boolean => value == 0 || value == 1
  | .operand _ ty => ty.isScalar
  | _ => false

def Unary.isScalar (unary : Unary) : Bool := unary.op == .not && unary.operand.isScalar

def Binary.isScalar (binary : Binary) : Bool :=
  binary.op != .not && binary.left.isScalar && binary.right.isScalar

def Condition.isScalar : Condition → Bool
  | .single e => e.isScalar
  | .unary u => u.isScalar
  | .binary b => b.isScalar

namespace Statement

def isScalarValue : Statement → Bool
  | .element e => e.isScalar
  | .unary u => u.isScalar
  | .binary b => b.isScalar
  | _ => false

def isScalar : Statement → Bool
  | .assign (.operand _ ty) _ rhs => ty.isScalar && rhs.isScalarValue
  | .goto _ | .ret none _ => true
  | .branch condition _ => condition.isScalar
  | .ret (some value) ty => ty.isScalar && value.isScalar
  | _ => false

end Statement

def Method.Scalar (method : Method) : Prop :=
  ∀ inst ∈ method.instructions, inst.statement.isScalar = true

-- ---------------------------------------------------------------------------
-- What evaluation depends on
-- ---------------------------------------------------------------------------

section

variable {values values' : String → Option Int32}

/-- The names all have a value. -/
def Known (values : String → Option Int32) (names : List String) : Prop :=
  ∀ name ∈ names, ∃ word, values name = some word

theorem Element.word?_of_scalar {element : Element} (scalar : element.isScalar = true)
    (known : Known values element.reads) : ∃ word, element.word? values = some word := by
  cases element with
  | literal value ty => exact ⟨value.word, rfl⟩
  | operand name ty => exact known name (by simp [reads, Ty.isClassRef_of_isScalar scalar])
  | slot name index ty => cases scalar

theorem Operator.evaluate?_of_ne_not {op : Operator} (h : op ≠ .not) (a b : Int32) :
    ∃ result, op.evaluate? a b = some result := by
  cases op <;> simp [evaluate?] at h ⊢

theorem Binary.evaluate?_of_scalar {binary : Binary} (scalar : binary.isScalar = true)
    (known : Known values ([binary.left, binary.right].flatMap Element.reads)) :
    ∃ result, binary.evaluate? values = some result := by
  simp only [isScalar, Bool.and_eq_true, bne_iff_ne] at scalar
  obtain ⟨⟨hop, hleft⟩, hright⟩ := scalar
  simp only [Known, List.flatMap_cons, List.flatMap_nil, List.append_nil, List.mem_append] at known
  obtain ⟨a, ha⟩ := Element.word?_of_scalar hleft fun name hname => known name (.inl hname)
  obtain ⟨b, hb⟩ := Element.word?_of_scalar hright fun name hname => known name (.inr hname)
  obtain ⟨result, hresult⟩ := Operator.evaluate?_of_ne_not hop a b
  exact ⟨result, by simp [evaluate?, ha, hb, hresult]⟩

theorem Statement.evaluate?_of_scalar {rhs : Statement} (scalar : rhs.isScalarValue = true)
    (known : Known values rhs.uses) : ∃ result, rhs.evaluate? values = some result := by
  cases rhs with
  | element e =>
    obtain ⟨word, hword⟩ := Element.word?_of_scalar scalar fun name hname =>
      known name (by simpa [uses, operands] using hname)
    exact ⟨.word word, by rw [evaluate?, hword]; rfl⟩
  | unary u =>
    obtain ⟨hop, hoperand⟩ := (Bool.and_eq_true _ _).mp scalar
    obtain ⟨word, hword⟩ := Element.word?_of_scalar hoperand fun name hname =>
      known name (by simpa [uses, operands] using hname)
    exact ⟨.word (word ^^^ 1), by rw [evaluate?, if_pos (beq_iff_eq.mp hop), hword]; rfl⟩
  | binary b => exact Binary.evaluate?_of_scalar scalar known
  | _ => cases scalar

theorem Condition.evaluate?_of_scalar {condition : Condition} (scalar : condition.isScalar = true)
    (known : Known values (condition.operands.flatMap Element.reads)) :
    ∃ result, condition.evaluate? values = some result := by
  cases condition with
  | single e =>
    obtain ⟨word, hword⟩ := Element.word?_of_scalar scalar fun name hname =>
      known name (by simpa [operands] using hname)
    exact ⟨.word word, by rw [evaluate?, hword]; rfl⟩
  | unary u =>
    obtain ⟨hop, hoperand⟩ := (Bool.and_eq_true _ _).mp scalar
    obtain ⟨word, hword⟩ := Element.word?_of_scalar hoperand fun name hname =>
      known name (by simpa [operands] using hname)
    exact ⟨.truth (word == 0), by rw [evaluate?, if_pos (beq_iff_eq.mp hop), hword]; rfl⟩
  | binary b => exact Binary.evaluate?_of_scalar scalar known

theorem Element.word?_congr {element : Element} (scalar : element.isScalar = true)
    (h : ∀ name ∈ element.reads, values name = values' name) :
    element.word? values = element.word? values' := by
  cases element with
  | literal value ty => rfl
  | operand name ty => exact h name (by simp [reads, Ty.isClassRef_of_isScalar scalar])
  | slot name index ty => cases scalar

theorem Binary.evaluate?_congr {binary : Binary} (scalar : binary.isScalar = true)
    (h : ∀ name ∈ [binary.left, binary.right].flatMap Element.reads, values name = values' name) :
    binary.evaluate? values = binary.evaluate? values' := by
  simp only [isScalar, Bool.and_eq_true] at scalar
  simp only [List.flatMap_cons, List.flatMap_nil, List.append_nil, List.mem_append] at h
  rw [evaluate?, evaluate?, Element.word?_congr scalar.1.2 fun name hname => h name (.inl hname),
    Element.word?_congr scalar.2 fun name hname => h name (.inr hname)]

theorem Statement.evaluate?_congr {rhs : Statement} (scalar : rhs.isScalarValue = true)
    (h : ∀ name ∈ rhs.uses, values name = values' name) :
    rhs.evaluate? values = rhs.evaluate? values' := by
  cases rhs with
  | element e =>
    rw [evaluate?, evaluate?, Element.word?_congr scalar]
    exact fun name hname => h name (by simpa [uses, operands] using hname)
  | unary u =>
    obtain ⟨-, hoperand⟩ := (Bool.and_eq_true _ _).mp scalar
    rw [evaluate?, evaluate?, Element.word?_congr hoperand]
    exact fun name hname => h name (by simpa [uses, operands] using hname)
  | binary b => exact Binary.evaluate?_congr scalar h
  | _ => cases scalar

theorem Condition.evaluate?_congr {condition : Condition} (scalar : condition.isScalar = true)
    (h : ∀ name ∈ condition.operands.flatMap Element.reads, values name = values' name) :
    condition.evaluate? values = condition.evaluate? values' := by
  cases condition with
  | single e =>
    rw [evaluate?, evaluate?, Element.word?_congr scalar]
    exact fun name hname => h name (by simpa [operands] using hname)
  | unary u =>
    obtain ⟨-, hoperand⟩ := (Bool.and_eq_true _ _).mp scalar
    rw [evaluate?, evaluate?, Element.word?_congr hoperand]
    exact fun name hname => h name (by simpa [operands] using hname)
  | binary b => exact Binary.evaluate?_congr scalar h

-- ---------------------------------------------------------------------------
-- Decisions
-- ---------------------------------------------------------------------------

namespace Instruction

variable {inst : Instruction} {next : Successor}

theorem decide?_congr (scalar : inst.statement.isScalar = true)
    (h : ∀ name ∈ inst.statement.uses, values name = values' name) :
    inst.decide? values = inst.decide? values' := by
  unfold decide?
  split
  · next hstatement _ =>
    rw [hstatement] at scalar h
    obtain ⟨-, hrhs⟩ := (Bool.and_eq_true _ _).mp scalar
    rw [Statement.evaluate?_congr hrhs h]
  · rfl
  · next hstatement _ =>
    rw [hstatement] at scalar h
    rw [Condition.evaluate?_congr scalar h]
  · rfl
  · next hstatement =>
    rw [hstatement] at scalar h
    obtain ⟨-, hvalue⟩ := (Bool.and_eq_true _ _).mp scalar
    rw [Element.word?_congr hvalue]
    exact fun name hname => h name (by simpa [Statement.uses, Statement.operands] using hname)
  · rfl

theorem decide?_move (h : inst.decide? values = some (.move next)) :
    inst.statement.def? = none ∧ next ∈ inst.successors := by
  unfold decide? at h
  split at h
  · obtain ⟨result, -, hresult⟩ := Option.map_eq_some_iff.mp h
    cases result <;> cases hresult
  · next hstatement hsuccs =>
    cases h
    rw [hstatement, hsuccs]
    exact ⟨rfl, List.mem_cons_self⟩
  · next hstatement hsuccs =>
    rw [hstatement, hsuccs]
    refine ⟨rfl, ?_⟩
    obtain ⟨result, -, hresult⟩ := Option.map_eq_some_iff.mp h
    cases result with
    | word word =>
      cases hresult
      split <;> simp
    | trap => cases hresult
  · cases h
  · obtain ⟨word, -, hword⟩ := Option.map_eq_some_iff.mp h
    cases hword
  · cases h

theorem decide?_write {name : String} {word : Int32} (scalar : inst.statement.isScalar = true)
    (h : inst.decide? values = some (.write name word next)) :
    inst.statement.def? = some name ∧ next ∈ inst.successors := by
  unfold decide? at h
  split at h
  · next hstatement hsuccs =>
    rw [hstatement] at scalar
    obtain ⟨hty, -⟩ := (Bool.and_eq_true _ _).mp scalar
    obtain ⟨result, -, hresult⟩ := Option.map_eq_some_iff.mp h
    cases result with
    | word word =>
      cases hresult
      rw [hstatement, hsuccs]
      simp [Statement.def?, Element.name?, Ty.isClassRef_of_isScalar hty]
    | trap => cases hresult
  · cases h
  · obtain ⟨result, -, hresult⟩ := Option.map_eq_some_iff.mp h
    cases result <;> cases hresult
  · cases h
  · obtain ⟨word, -, hword⟩ := Option.map_eq_some_iff.mp h
    cases hword
  · cases h

end Instruction

end

theorem Method.Declares.known {method : Method} (declares : method.Declares) {inst : Instruction}
    (hinst : inst ∈ method.instructions) (registers : Nat → Int32) :
    Known (method.values registers) inst.statement.uses := by
  intro name hname
  obtain ⟨register, hregister⟩ := exists_register? (declares inst hinst name (.inr hname))
  exact ⟨registers register, by rw [values, hregister]; rfl⟩

/-- A scalar instruction with its successors in order always comes to a decision. -/
theorem Method.Linked.decide?_of_scalar {method : Method} (linked : method.Linked)
    (declares : method.Declares) {index : Nat} {inst : Instruction}
    (hinst : method.instructions[index]? = some inst) (scalar : inst.statement.isScalar = true)
    (registers : Nat → Int32) :
    ∃ decision, inst.decide? (method.values registers) = some decision := by
  have known := declares.known (List.mem_of_getElem? hinst) registers
  have hsuccs := linked.successors_eq index inst hinst
  cases hstatement : inst.statement with
  | assign dest ty rhs =>
    rw [hstatement] at scalar known hsuccs
    have hbehind := (Except.ok.inj hsuccs).symm
    cases dest with
    | operand name destTy =>
      obtain ⟨-, hrhs⟩ := (Bool.and_eq_true _ _).mp scalar
      obtain ⟨result, hresult⟩ := Statement.evaluate?_of_scalar hrhs known
      exact ⟨_, by simp only [Instruction.decide?, hstatement, hbehind, hresult, Option.map_some]; rfl⟩
    | literal value ty => cases scalar
    | slot name position ty => cases scalar
  | goto label =>
    rw [hstatement] at hsuccs
    obtain ⟨next, -, hnext⟩ := ControlFlow.successors_goto.mp hsuccs
    exact ⟨_, by simp only [Instruction.decide?, hstatement, hnext]; rfl⟩
  | branch condition label =>
    rw [hstatement] at scalar known hsuccs
    obtain ⟨next, -, hboth⟩ := ControlFlow.successors_branch.mp hsuccs
    obtain ⟨result, hresult⟩ := Condition.evaluate?_of_scalar scalar known
    exact ⟨_, by simp only [Instruction.decide?, hstatement, hboth, hresult, Option.map_some]; rfl⟩
  | ret value? ty =>
    rw [hstatement] at scalar known
    cases value? with
    | none => exact ⟨_, by simp only [Instruction.decide?, hstatement]; rfl⟩
    | some value =>
      obtain ⟨-, hvalue⟩ := (Bool.and_eq_true _ _).mp scalar
      obtain ⟨word, hword⟩ := Element.word?_of_scalar hvalue fun name hname =>
        known name (by simpa [Statement.uses, Statement.operands] using hname)
      exact ⟨_, by simp only [Instruction.decide?, hstatement, hword, Option.map_some]; rfl⟩
  | _ =>
    rw [hstatement] at scalar
    cases scalar

end ThreeAddress
