import Mathlib.Logic.Function.Basic
import ThreeAddress.Proofs.Halting
import ThreeAddress.Proofs.OwnLabels

/-!
# A machine for stack instructions

The machine has a stack of 32-bit numbers, a file of registers, and the items that are still ahead of
it. Arithmetic wraps around, a division by zero is a trap, and a jump goes to the first item with the
label. Instructions on references get it stuck, and so does a stack that is too short.
-/

namespace ThreeAddress

open Relation (ReflTransGen)

inductive Outcome where
  | value (word : Int32)
  | void
  | trap
  deriving DecidableEq, Repr

/-- The end of a run, with the registers as it leaves them. -/
structure Final where
  outcome : Outcome
  registers : Nat → Int32

def Comparison.holds : Comparison → Int32 → Int32 → Bool
  | .eq, a, b => a == b
  | .ne, a, b => a != b
  | .lt, a, b => a < b
  | .ge, a, b => b ≤ a
  | .gt, a, b => b < a
  | .le, a, b => a ≤ b

/-- The items of the body from a label on. -/
def landing (body : List Item) (label : String) : List Item :=
  body.dropWhile (· != .label label)

structure Machine where
  ahead : List Item
  stack : List Int32
  registers : Nat → Int32

namespace Machine

def start (body : List Item) (registers : Nat → Int32) : Machine := ⟨body, [], registers⟩

/-- What an instruction does, where `ahead` is what follows it. -/
def perform (body : List Item) (op : StackOp) (machine : Machine) : Turn Machine Final :=
  let replace (stack : List Int32) : Turn Machine Final := .next { machine with stack }
  let jumpIf (taken : Bool) (label : String) (stack : List Int32) : Turn Machine Final :=
    .next { machine with ahead := if taken then landing body label else machine.ahead, stack }
  match op, machine.stack with
  | .iconst value, stack | .bipush value, stack | .sipush value, stack | .ldc value, stack =>
    replace (value :: stack)
  | .iload register, stack => replace (machine.registers register :: stack)
  | .istore register, value :: stack =>
    .next { machine with stack, registers := Function.update machine.registers register value }
  | .iinc register amount, _ =>
    .next { machine with
      registers :=
        Function.update machine.registers register (machine.registers register + amount) }
  -- The right operand is on top.
  | .iadd, b :: a :: stack => replace ((a + b) :: stack)
  | .isub, b :: a :: stack => replace ((a - b) :: stack)
  | .imul, b :: a :: stack => replace ((a * b) :: stack)
  | .idiv, b :: a :: stack =>
    if b = 0 then .done ⟨.trap, machine.registers⟩ else replace ((a / b) :: stack)
  | .iand, b :: a :: stack => replace ((a &&& b) :: stack)
  | .ior, b :: a :: stack => replace ((a ||| b) :: stack)
  | .ixor, b :: a :: stack => replace ((a ^^^ b) :: stack)
  | .ifZero comparison label, a :: stack => jumpIf (comparison.holds a 0) label stack
  | .ifCompare comparison label, b :: a :: stack => jumpIf (comparison.holds a b) label stack
  | .goto label, stack => jumpIf true label stack
  | .dup, a :: stack => replace (a :: a :: stack)
  | .pop, _ :: stack => replace stack
  | .ireturn, a :: _ => .done ⟨.value a, machine.registers⟩
  | .ret, _ => .done ⟨.void, machine.registers⟩
  | _, _ => .stuck

def step (body : List Item) (machine : Machine) : Turn Machine Final :=
  match machine.ahead with
  | [] => .stuck
  | .label _ :: rest => .next { machine with ahead := rest }
  | .op op :: rest => perform body op { machine with ahead := rest }

variable {body rest : List Item} {stack : List Int32} {registers : Nat → Int32}

theorem step_idiv (a b : Int32) :
    step body ⟨.op .idiv :: rest, b :: a :: stack, registers⟩
      = if b = 0 then .done ⟨.trap, registers⟩ else .next ⟨rest, (a / b) :: stack, registers⟩ :=
  rfl

theorem step_ifZero (comparison : Comparison) (label : String) (word : Int32) :
    step body ⟨.op (.ifZero comparison label) :: rest, word :: stack, registers⟩
      = .next ⟨if comparison.holds word 0 then landing body label else rest, stack, registers⟩ :=
  rfl

theorem goes_labels (labels : List String) :
    ReflTransGen (Goes (step body)) ⟨labels.map .label ++ rest, stack, registers⟩
      ⟨rest, stack, registers⟩ := by
  induction labels with
  | nil => exact .refl
  | cons label labels ih => exact .head rfl ih

end Machine

/-- A label that stands once is found where it stands. -/
theorem landing_of_nodup {body rest : List Item} {label : String} (unique : (labelsOf body).Nodup)
    (h : .label label :: rest <:+ body) : landing body label = .label label :: rest := by
  obtain ⟨before, rfl⟩ := h
  have hbefore : ∀ item ∈ before, (item != .label label) = true := by
    intro item hitem
    rw [bne_iff_ne]
    rintro rfl
    rw [labelsOf_append] at unique
    have hlabel : label ∈ labelsOf (.label label :: rest) := mem_labelsOf.mpr List.mem_cons_self
    exact (List.nodup_append.mp unique).2.2 label (mem_labelsOf.mpr hitem) label hlabel rfl
  rw [landing, List.dropWhile_append_of_pos hbefore, List.dropWhile_cons_of_neg (by simp)]

end ThreeAddress
