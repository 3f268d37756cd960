import ThreeAddress.Lowering.Jump
import ThreeAddress.Proofs.Linked

/-!
# Chains of jumps

In a linked method `Site.follow` always finds a label, and the label it finds is reached from the one it
started at by unconditional jumps alone (`Method.Forwards`). The chain may close; where it ends then is
the subject of `ChainEnds`.
-/

namespace ThreeAddress

/-- Unconditional jumps lead from one instruction to the other. -/
inductive Method.Forwards (method : Method) : Nat → Nat → Prop
  | refl (id : Nat) : Forwards method id id
  | step {id next last : Nat} {inst : Instruction} {label : String} :
    method.instruction? id = some inst → inst.statement = .goto label →
    method.label? label = some next → Forwards method next last → Forwards method id last

theorem Method.Linked.label?_of_goto {method : Method} (linked : method.Linked) {id : Nat}
    {inst : Instruction} {label : String} (hinst : method.instruction? id = some inst)
    (hgoto : inst.statement = .goto label) :
    ∃ next, method.label? label = some next ∧ inst.successors = [.instruction next] := by
  cases id with
  | zero => cases hinst
  | succ index =>
    have hsuccs := linked.successors_eq index inst hinst
    rw [hgoto] at hsuccs
    exact ControlFlow.successors_goto.mp hsuccs

theorem Method.Linked.label?_of_branch {method : Method} (linked : method.Linked) {index : Nat}
    {inst : Instruction} {condition : Condition} {label : String}
    (hinst : method.instructions[index]? = some inst)
    (hbranch : inst.statement = .branch condition label) :
    ∃ next, method.label? label = some next ∧
      inst.successors
        = [.instruction next, ControlFlow.behind method.instructions.length index] := by
  have hsuccs := linked.successors_eq index inst hinst
  rw [hbranch] at hsuccs
  exact ControlFlow.successors_branch.mp hsuccs

theorem Method.Linked.label?_of_jump {method : Method} (linked : method.Linked) {inst : Instruction}
    {label : String} (hinst : inst ∈ method.instructions)
    (hjump : inst.statement.jump? = some label) : ∃ id, method.label? label = some id := by
  obtain ⟨index, hindex⟩ := List.mem_iff_getElem?.mp hinst
  cases hstatement : inst.statement with
  | goto target =>
    rw [hstatement] at hjump
    cases hjump
    obtain ⟨next, hnext, -⟩ := @Method.Linked.label?_of_goto _ linked (index + 1) _ _ hindex hstatement
    exact ⟨next, hnext⟩
  | branch condition target =>
    rw [hstatement] at hjump
    cases hjump
    obtain ⟨next, hnext, -⟩ := linked.label?_of_branch hindex hstatement
    exact ⟨next, hnext⟩
  | _ =>
    rw [hstatement] at hjump
    cases hjump

namespace Site

variable {site : Site}

-- By induction on the fuel. When it runs out, the label is the target of the last jump.
theorem followWithin_ok (linked : site.method.Linked) {fuel : Nat} {seen : List String}
    {label : String} {id : Nat} (hlabel : site.method.label? label = some id) :
    ∃ last lastId, site.followWithin fuel seen label = .ok last ∧
      site.method.label? last = some lastId ∧ site.method.Forwards id lastId := by
  induction fuel generalizing seen label id with
  | zero => exact ⟨label, id, rfl, hlabel, .refl id⟩
  | succ fuel ih =>
    obtain ⟨inst, hinst, -⟩ := (linked.label?_iff label id).mp hlabel
    simp only [followWithin, hlabel, hinst]
    split
    · next next hgoto =>
      obtain ⟨nextId, hnext, -⟩ := linked.label?_of_goto hinst hgoto
      split
      · exact ⟨label, id, rfl, hlabel, .refl id⟩
      · obtain ⟨last, lastId, hlast, hlastId, hforwards⟩ := ih hnext
        exact ⟨last, lastId, hlast, hlastId, .step hinst hgoto hnext hforwards⟩
    · exact ⟨label, id, rfl, hlabel, .refl id⟩

theorem follow_ok (linked : site.method.Linked) {label : String} {id : Nat}
    (hlabel : site.method.label? label = some id) :
    ∃ last lastId, site.follow label = .ok last ∧ site.method.label? last = some lastId ∧
      site.method.Forwards id lastId :=
  followWithin_ok linked hlabel

end Site

end ThreeAddress
