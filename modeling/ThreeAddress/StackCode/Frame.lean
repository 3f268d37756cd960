import ThreeAddress.Lowering.Fault
import ThreeAddress.StackCode.Op
import ThreeAddress.Table

/-!
# Stack frames

`maxStack` follows the depth of the operand stack through a body from top to bottom. Code behind a jump
or a return is reached through a label only, so its depth is the one recorded at the jumps to that
label; a label that is only jumped to from further down starts at zero.
-/

namespace ThreeAddress

structure Frame where
  depth : Nat
  max : Nat
  reachable : Bool
  /-- The depth at each label, as first seen. -/
  labels : Table Nat
  deriving DecidableEq, Repr

namespace Frame

def start : Frame where
  depth := 0
  max := 0
  reachable := true
  labels := ∅

/-- The frame as an instruction finds it. Where control cannot fall in, the stack is empty. -/
def found (frame : Frame) : Frame :=
  if frame.reachable then frame else { frame with depth := 0, reachable := true }

def enterLabel (frame : Frame) (label : String) : Frame :=
  if frame.reachable then { frame with labels := frame.labels.setNew label frame.depth }
  else { frame with depth := (frame.labels.get? label).getD 0, reachable := true }

/-- The frame after an instruction that there are enough values for. -/
def afterOp (frame : Frame) (op : StackOp) : Frame :=
  let depth := frame.depth - op.pops + op.pushes
  { depth
    max := Nat.max frame.max depth
    reachable := !op.isTerminator
    labels := match op.target? with
      | some label => frame.labels.setNew label depth
      | none => frame.labels }

def apply (frame : Frame) : Item → Except Fault Frame
  | .label label => .ok (frame.enterLabel label)
  | .op op =>
    if frame.found.depth < op.pops then .error (.stackUnderflow op.text)
    else .ok (frame.found.afterOp op)

def applyAll : Frame → List Item → Except Fault Frame
  | frame, [] => .ok frame
  | frame, item :: rest =>
    match frame.apply item with
    | .ok frame => applyAll frame rest
    | .error fault => .error fault

end Frame

/-- The greatest depth that the stack reaches in a body. -/
def maxStack (body : List Item) : Except Fault Nat :=
  match Frame.start.applyAll body with
  | .ok frame => .ok frame.max
  | .error fault => .error fault

end ThreeAddress
