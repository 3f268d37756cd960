import ThreeAddress.Lowering.Load

/-!
# Lowering jumps

A jump to a `goto` goes where that leads in the end. Comparisons with zero have instructions of their
own; if the zero is on the left, the comparison is turned round.
-/

namespace ThreeAddress

def Operator.comparison? : Operator → Option Comparison
  | .lt => some .lt
  | .gt => some .gt
  | .le => some .le
  | .ge => some .ge
  | .eq => some .eq
  | .ne => some .ne
  | _ => none

namespace Site

def followWithin (site : Site) : (fuel : Nat) → (seen : List String) → String → Except Fault String
  | 0, _, label => .ok label
  | fuel + 1, seen, label =>
    match site.method.label? label with
    | none => .error (.unknownLabel label)
    | some id =>
      match site.method.instruction? id with
      | none => .error (.missingInstruction id site.method.name)
      | some inst =>
        match inst.statement with
        | .goto next =>
          -- A chain that closes ends before the label it comes back to.
          if next ∈ seen then .ok label else site.followWithin fuel (next :: seen) next
        | _ => .ok label

/-- The label at the end of a chain of unconditional jumps, or before one that was seen already. Every
step takes another label, so there are no more steps than labels. -/
def follow (site : Site) (label : String) : Except Fault String :=
  site.followWithin (site.method.labels.size + 1) [label] label

/-- Jumps to `target` if the comparison holds. -/
def compareJump (site : Site) (binary : Binary) (target : String) : Except Fault (List Item) :=
  let refused := Fault.unsupported ("the comparison `" ++ binary.text ++ "`")
  match binary.op.comparison?, binary.op.swapped.comparison? with
  | some comparison, some swapped =>
    if binary.right.isZero then do
      let left ← site.load binary.left
      .ok (left ++ ops [.ifZero comparison target])
    else if binary.left.isZero then do
      let right ← site.load binary.right
      .ok (right ++ ops [.ifZero swapped target])
    else do
      let left ← site.load binary.left
      let right ← site.load binary.right
      .ok (left ++ right ++ ops [.ifCompare comparison target])
  | _, _ => .error refused

def ret (site : Site) (value? : Option Element) (ty : Ty) : Except Fault (List Item) :=
  match value?, ty.category with
  | none, .void => .ok (ops [.ret])
  | none, _ => .error .missingReturn
  | some value, .void => .error (.unsupported ("returning `" ++ value.text ++ "` from a void method"))
  | some value, .integer => do
    let loaded ← site.load value
    .ok (loaded ++ ops [.ireturn])
  | some value, .reference => do
    let loaded ← site.load value
    .ok (loaded ++ ops [.areturn])

end Site

end ThreeAddress
