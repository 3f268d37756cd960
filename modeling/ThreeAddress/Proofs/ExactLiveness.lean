import ThreeAddress.Proofs.Linked
import ThreeAddress.Proofs.Settled

/-!
# Liveness is exact

A variable is live before an instruction exactly if some path of control from there comes to a use of
it and meets no definition of it on the way (`Method.MayRead`). That no such variable is missing holds
of any sets that satisfy the equations of liveness. That there is no other variable holds because the
paths bound the sets from above, and a visit keeps within any bound that leaves room for it.

`Method.liveness_exact` is the main statement. It adds that the passes come to an end, and that the sets
they end with are the least solution of the equations.
-/

namespace ThreeAddress

namespace Liveness

/-- Passes are repeated while they change something. The last one leaves the second list of nodes. -/
inductive Settles : List LiveNode → List LiveNode → Prop
  | done {nodes after : List LiveNode} : checkedPass nodes = .ok (after, false) → Settles nodes after
  | again {nodes next after : List LiveNode} : checkedPass nodes = .ok (next, true) →
    Settles next after → Settles nodes after

/-- Every successor of a node exists. -/
def Complete (nodes : List LiveNode) : Prop :=
  ∀ node ∈ nodes, ∀ succ ∈ node.succs, ∃ next, node? nodes succ = some next

theorem checkedPass_of_complete {nodes : List LiveNode} (h : Complete nodes) :
    checkedPass nodes = .ok (pass nodes) := by
  have hnone : dangling? nodes = none := by
    refine List.findSome?_eq_none_iff.mpr ?_
    rintro ⟨node, index⟩ hmem
    have hnode : node ∈ nodes := List.mem_of_getElem? (List.mem_zipIdx_iff_getElem?.mp hmem)
    simp only [Option.map_eq_none_iff, List.find?_eq_none]
    intro succ hsucc
    obtain ⟨next, hnext⟩ := h node hnode succ hsucc
    simp [hnext]
  rw [checkedPass, hnone]

theorem Below.exists_node {nodes others : List LiveNode} (h : Below nodes others) {id : Nat}
    {node : LiveNode} (hnode : node? nodes id = some node) : ∃ other, node? others id = some other := by
  cases id with
  | zero => cases hnode
  | succ index =>
    have hlt : index < others.length := h.length_eq ▸ (List.getElem?_eq_some_iff.mp hnode).1
    exact ⟨_, List.getElem?_eq_getElem hlt⟩

theorem Complete.of_below {nodes others : List LiveNode} (complete : Complete nodes)
    (h : Below nodes others) : Complete others := by
  intro other hother succ hsucc
  have houtline : other.outline ∈ nodes.map LiveNode.outline := by
    rw [h.map_outline]
    exact List.mem_map_of_mem hother
  obtain ⟨node, hnode, heq⟩ := List.mem_map.mp houtline
  have hsuccs : node.outline.succs = other.outline.succs := congrArg LiveNode.succs heq
  have hmem : succ ∈ node.outline.succs := hsuccs ▸ hsucc
  obtain ⟨next, hnext⟩ := complete node hnode succ hmem
  exact h.exists_node hnext

theorem settles_settle {nodes : List LiveNode} (complete : Complete nodes) :
    Settles nodes (settle nodes) := by
  refine settle_induction (motive := fun nodes after => Complete nodes → Settles nodes after)
    ?_ ?_ nodes complete
  · intro nodes unchanged complete
    refine .done ((checkedPass_of_complete complete).trans (congrArg Except.ok ?_))
    exact Prod.ext (visitAll_unchanged unchanged).1 unchanged
  · intro nodes after changed ih complete
    have hpass : checkedPass nodes = .ok ((pass nodes).1, true) := by
      rw [checkedPass_of_complete complete, ← changed]
    exact .again hpass (ih (complete.of_below (below_visitAll _ _)))

theorem Within.settle {before after : Nat → String → Prop} {nodes : List LiveNode}
    (h : Within before after nodes) : Within before after (Liveness.settle nodes) :=
  settle_induction
    (motive := fun nodes settled => Within before after nodes → Within before after settled)
    (fun _ h => h) (fun _ ih h => ih (h.visitAll _)) nodes h

def liveOutOf (nodes : List LiveNode) (id : Nat) : NameSet :=
  match node? nodes id with
  | some node => node.liveOut
  | none => ∅

end Liveness

open Liveness (Settles Within Complete liveInOf liveOutOf node?)

namespace Method

/-- A path along the successors leads from the instruction with the given number to a use of the
variable, and no instruction before that use defines it. -/
inductive MayRead (method : Method) (name : String) : Nat → Prop
  | here {id : Nat} {inst : Instruction} : method.instruction? id = some inst →
    name ∈ inst.statement.uses → MayRead method name id
  | later {id next : Nat} {inst : Instruction} : method.instruction? id = some inst →
    name ∉ inst.statement.defs → .instruction next ∈ inst.successors → MayRead method name next →
    MayRead method name id

/-- What a path after the instruction may read. -/
def MayReadAfter (method : Method) (name : String) (id : Nat) : Prop :=
  ∃ inst, method.instruction? id = some inst ∧
    ∃ next, .instruction next ∈ inst.successors ∧ method.MayRead name next

variable {method : Method} {id : Nat} {inst : Instruction} {name : String}

theorem within_mayRead (method : Method) :
    Within (fun id name => method.MayRead name id) (fun id name => method.MayReadAfter name id)
      (method.instructions.map Instruction.liveNode) := by
  have hinst : ∀ {index : Nat} {node : LiveNode},
      (method.instructions.map Instruction.liveNode)[index]? = some node →
      ∃ inst, method.instruction? (index + 1) = some inst ∧ node = inst.liveNode := by
    intro index node hnode
    rw [List.getElem?_map] at hnode
    obtain ⟨inst, hinst, rfl⟩ := Option.map_eq_some_iff.mp hnode
    exact ⟨inst, hinst, rfl⟩
  refine ⟨?_, ?_, ?_, ?_, ?_⟩
  · intro index node name hnode hname
    obtain ⟨inst, -, rfl⟩ := hinst hnode
    exact absurd hname (NameSet.not_mem_empty name)
  · intro index node name hnode hname
    obtain ⟨inst, -, rfl⟩ := hinst hnode
    exact absurd hname (NameSet.not_mem_empty name)
  · intro index node name hnode huse
    obtain ⟨inst, hget, rfl⟩ := hinst hnode
    exact .here hget (NameSet.mem_ofList.mp huse)
  · intro index node name hnode hafter hdef
    obtain ⟨inst, hget, rfl⟩ := hinst hnode
    obtain ⟨other, hother, next, hnext, hread⟩ := hafter
    cases hget.symm.trans hother
    exact .later hget (fun hin => hdef (NameSet.mem_ofList.mpr hin)) hnext hread
  · intro index node name succ hnode hsucc hread
    obtain ⟨inst, hget, rfl⟩ := hinst hnode
    exact ⟨inst, hget, succ, Instruction.mem_nextIds.mp hsucc, hread⟩

theorem MayRead.mem_liveInOf (h : method.MayRead name id) : name ∈ liveInOf method.liveness id := by
  induction h with
  | here hinst huse =>
    obtain ⟨index, node, hnode, hliveIn, -, huses, -⟩ := exists_node hinst
    rw [hliveIn]
    exact method.closed_liveness.of_use hnode ((huses name).mpr huse)
  | later hinst hdef hnext _ ih =>
    obtain ⟨index, node, hnode, hliveIn, hdefs, -, hsuccs⟩ := exists_node hinst
    have hsucc := hsuccs ▸ Instruction.mem_nextIds.mpr hnext
    have hout := method.closed_liveness.of_succ hnode hsucc ih
    rw [hliveIn]
    exact method.closed_liveness.of_kept hnode hout (mt (hdefs name).mp hdef)

theorem mem_liveInOf_iff : name ∈ liveInOf method.liveness id ↔ method.MayRead name id := by
  constructor
  · intro hname
    obtain ⟨index, node, rfl, hnode, hlive⟩ := Liveness.mem_liveInOf.mp hname
    exact method.within_mayRead.settle.liveIn hnode hlive
  · exact MayRead.mem_liveInOf

theorem exists_node? (hinst : method.instruction? id = some inst) :
    ∃ node, node? method.liveness id = some node := by
  cases id with
  | zero => cases hinst
  | succ index =>
    obtain ⟨node, hnode, -⟩ := getElem?_liveness hinst
    exact ⟨node, hnode⟩

theorem mem_liveOutOf_iff (hinst : method.instruction? id = some inst) :
    name ∈ liveOutOf method.liveness id ↔
      ∃ next, .instruction next ∈ inst.successors ∧ name ∈ liveInOf method.liveness next := by
  cases id with
  | zero => cases hinst
  | succ index =>
    obtain ⟨node, hnode, houtline⟩ := getElem?_liveness hinst
    have hsuccs : node.succs = inst.nextIds := congrArg LiveNode.succs houtline
    have hout : liveOutOf method.liveness (index + 1) = node.liveOut := by
      simp only [liveOutOf, node?, hnode]
    rw [hout]
    constructor
    · intro hname
      obtain ⟨other, hother, next, hnext, hread⟩ := method.within_mayRead.settle.liveOut hnode hname
      cases hinst.symm.trans hother
      exact ⟨next, hnext, hread.mem_liveInOf⟩
    · rintro ⟨next, hnext, hname⟩
      exact method.closed_liveness.of_succ hnode (hsuccs ▸ Instruction.mem_nextIds.mpr hnext) hname

/-- Sets for the places before and after each instruction that satisfy the equations of liveness. -/
structure LiveSolution (method : Method) (before after : Nat → NameSet) : Prop where
  mem_before : ∀ {id : Nat} {inst : Instruction} {name}, method.instruction? id = some inst →
    (name ∈ before id ↔ name ∈ inst.statement.uses ∨ name ∈ after id ∧ name ∉ inst.statement.defs)
  mem_after : ∀ {id : Nat} {inst : Instruction} {name}, method.instruction? id = some inst →
    (name ∈ after id ↔ ∃ next, .instruction next ∈ inst.successors ∧ name ∈ before next)

theorem MayRead.mem_of_solution {before after : Nat → NameSet} (solution : method.LiveSolution before after)
    (h : method.MayRead name id) : name ∈ before id := by
  induction h with
  | here hinst huse => exact (solution.mem_before hinst).mpr (.inl huse)
  | later hinst hdef hnext _ ih =>
    have hafter := (solution.mem_after hinst).mpr ⟨_, hnext, ih⟩
    exact (solution.mem_before hinst).mpr (.inr ⟨hafter, hdef⟩)

theorem liveSolution_liveness (method : Method) :
    method.LiveSolution (liveInOf method.liveness) (liveOutOf method.liveness) := by
  refine ⟨?_, mem_liveOutOf_iff⟩
  intro id inst name hinst
  rw [mem_liveInOf_iff, mem_liveOutOf_iff hinst]
  simp only [mem_liveInOf_iff]
  constructor
  · intro hread
    cases hread with
    | here hother huse =>
      cases hinst.symm.trans hother
      exact .inl huse
    | later hother hdef hnext hread =>
      cases hinst.symm.trans hother
      exact .inr ⟨⟨_, hnext, hread⟩, hdef⟩
  · rintro (huse | ⟨⟨next, hnext, hread⟩, hdef⟩)
    · exact .here hinst huse
    · exact .later hinst hdef hnext hread

theorem Linked.complete (linked : method.Linked) :
    Complete (method.instructions.map Instruction.liveNode) := by
  intro node hnode succ hsucc
  obtain ⟨inst, hinst, rfl⟩ := List.mem_map.mp hnode
  obtain ⟨next, hnext⟩ := linked.exists_of_successor hinst (Instruction.mem_nextIds.mp hsucc)
  cases succ with
  | zero => cases hnext
  | succ index =>
    refine ⟨next.liveNode, ?_⟩
    show (method.instructions.map Instruction.liveNode)[index]? = _
    rw [List.getElem?_map, show method.instructions[index]? = some next from hnext]
    rfl

theorem liveness_exact {draft : Draft} {method : Method} (h : draft.build = .ok method) :
    Settles (method.instructions.map Instruction.liveNode) method.liveness ∧
      (∀ id inst, method.instruction? id = some inst → ∃ node, node? method.liveness id = some node ∧
        ∀ name, (name ∈ node.liveIn ↔ method.MayRead name id) ∧
          (name ∈ node.liveOut ↔
            ∃ next, .instruction next ∈ inst.successors ∧ name ∈ liveInOf method.liveness next)) ∧
      method.LiveSolution (liveInOf method.liveness) (liveOutOf method.liveness) ∧
      ∀ before after, method.LiveSolution before after → ∀ id inst,
        method.instruction? id = some inst →
        liveInOf method.liveness id ⊆ before id ∧ liveOutOf method.liveness id ⊆ after id := by
  have linked := Draft.linked_of_build h
  refine ⟨Liveness.settles_settle linked.complete, ?_, liveSolution_liveness method, ?_⟩
  · intro id inst hinst
    obtain ⟨node, hnode⟩ := exists_node? hinst
    have hliveIn : node.liveIn = liveInOf method.liveness id := by simp only [liveInOf, hnode]
    have hliveOut : node.liveOut = liveOutOf method.liveness id := by simp only [liveOutOf, hnode]
    refine ⟨node, hnode, fun name => ?_⟩
    rw [hliveIn, hliveOut]
    exact ⟨mem_liveInOf_iff, mem_liveOutOf_iff hinst⟩
  · intro before after solution id inst hinst
    refine ⟨fun name hname => (mem_liveInOf_iff.mp hname).mem_of_solution solution, ?_⟩
    intro name hname
    obtain ⟨next, hnext, hlive⟩ := (mem_liveOutOf_iff hinst).mp hname
    exact (solution.mem_after hinst).mpr
      ⟨next, hnext, (mem_liveInOf_iff.mp hlive).mem_of_solution solution⟩

end Method

/-- Adds up the numbers from `n` down to 1. The last value of `n` is kept in `seen` for nothing. -/
def countdown : Draft :=
  let n : Element := .operand "n" .int32
  let total : Element := .operand "total" .int32
  let zero : Element := .literal (.int 0) .int32
  let start := (((Draft.new "sum" .int32).addParam "n" .int32).push (.assign total .int32 (.element zero)))
  let loop := ((start.label "again").push
      (.assign total .int32 (.binary { op := .add, left := total, right := n }))).push
    (.assign n .int32 (.binary { op := .sub, left := n, right := .literal (.int 1) .int32 }))
  let back := loop.push (.branch (.binary { op := .gt, left := n, right := zero }) "again")
  (back.push (.assign (.operand "seen" .int32) .int32 (.element n))).push (.ret (some total) .int32)

def countdownMethod : Method :=
  match countdown.build with
  | .ok method => method
  | .error _ => countdown.unlinked

/-- At the jump back both the total and the counter may still be read; at the start the total may not,
for it is set first. -/
theorem liveness_exact_countdown : countdown.build = .ok countdownMethod ∧
    Settles (countdownMethod.instructions.map Instruction.liveNode) countdownMethod.liveness ∧
    countdownMethod.MayRead "total" 4 ∧ countdownMethod.MayRead "n" 4 ∧
    countdownMethod.MayRead "n" 1 ∧ ¬ countdownMethod.MayRead "total" 1 ∧
    ¬ countdownMethod.MayRead "seen" 6 := by
  have built : countdown.build = .ok countdownMethod := rfl
  obtain ⟨settles, exact, -, -⟩ := Method.liveness_exact built
  have reads : ∀ {id : Nat} {inst : Instruction} {name : String},
      countdownMethod.instruction? id = some inst →
      (name ∈ liveInOf countdownMethod.liveness id ↔ countdownMethod.MayRead name id) := by
    intro id inst name hinst
    obtain ⟨node, hnode, hlive⟩ := exact id inst hinst
    rw [← (hlive name).1, liveInOf, hnode]
  refine ⟨built, settles, (reads rfl).mp ?_, (reads rfl).mp ?_, (reads rfl).mp ?_,
    mt (reads rfl).mpr ?_, mt (reads rfl).mpr ?_⟩ <;> decide +kernel

end ThreeAddress
