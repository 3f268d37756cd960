import ThreeAddress.Draft

/-!
# Built methods are linked

What holds of the body of every method that `Draft.build` returns. The instructions are numbered in
order, a label leads to the instruction that carries it, no label is carried twice, and the successors
are the ones that the statement asks for. `Draft.linked_of_build` is the main statement. None of this
speaks of registers.
-/

namespace ThreeAddress

namespace ControlFlow

/-- Where control goes on behind the instruction with the given index in a body of `count`. -/
def behind (count index : Nat) : Successor :=
  if index + 1 < count then .instruction (index + 2) else .exit

theorem successors_goto {labels : Table Nat} {next : Successor} {label : String}
    {succs : List Successor} : successors labels next (.goto label) = .ok succs ↔
      ∃ id, labels.get? label = some id ∧ succs = [.instruction id] := by
  simp only [successors, target]
  cases labels.get? label <;> simp [eq_comm]

theorem successors_branch {labels : Table Nat} {next : Successor} {condition : Condition}
    {label : String} {succs : List Successor} :
    successors labels next (.branch condition label) = .ok succs ↔
      ∃ id, labels.get? label = some id ∧ succs = [.instruction id, next] := by
  simp only [successors, target]
  cases labels.get? label <;> simp [eq_comm]

/-- A successor is the exit, what comes next, or where a label leads. -/
theorem mem_successors {labels : Table Nat} {next succ : Successor} {statement : Statement}
    {succs : List Successor} (h : successors labels next statement = .ok succs) (hin : succ ∈ succs) :
    succ = .exit ∨ succ = next ∨ ∃ label id, labels.get? label = some id ∧ succ = .instruction id := by
  cases statement with
  | goto label =>
    obtain ⟨id, hid, rfl⟩ := successors_goto.mp h
    exact .inr (.inr ⟨label, id, hid, List.mem_singleton.mp hin⟩)
  | branch condition label =>
    obtain ⟨id, hid, rfl⟩ := successors_branch.mp h
    rcases List.mem_cons.mp hin with rfl | hin
    · exact .inr (.inr ⟨label, id, hid, rfl⟩)
    · exact .inr (.inl (List.mem_singleton.mp hin))
  | ret value? ty =>
    cases h
    exact .inl (List.mem_singleton.mp hin)
  | _ =>
    cases h
    exact .inr (.inl (List.mem_singleton.mp hin))

theorem enterLabels_ok {id : Nat} {labels : List String} {table table' : Table Nat}
    (h : enterLabels id labels table = .ok table') :
    labels.Nodup ∧ (∀ label ∈ labels, table.get? label = none) ∧
      ∀ label, table'.get? label = if label ∈ labels then some id else table.get? label := by
  induction labels generalizing table with
  | nil =>
    cases h
    simp
  | cons first rest ih =>
    simp only [enterLabels] at h
    split at h
    · cases h
    · next unknown =>
      obtain ⟨nodup, fresh, get⟩ := ih h
      have hfirst : table.get? first = none := by simpa [Table.contains] using unknown
      have apart : first ∉ rest := by
        intro hin
        have := fresh first hin
        simp at this
      refine ⟨List.nodup_cons.mpr ⟨apart, nodup⟩, ?_, ?_⟩
      · intro label hlabel
        rcases List.mem_cons.mp hlabel with rfl | hin
        · exact hfirst
        · have ne : first ≠ label := fun eq => apart (eq ▸ hin)
          simpa [ne] using fresh label hin
      · intro label
        rw [get, Table.get?_set]
        by_cases hin : label ∈ rest
        · simp [hin]
        · by_cases eq : first = label
          · simp [eq]
          · simp [hin, eq, Ne.symm eq]

theorem collectLabels_ok {insts : List Instruction} {table table' : Table Nat}
    (h : collectLabels insts table = .ok table') :
    (insts.flatMap Instruction.labels).Nodup ∧
      (∀ inst ∈ insts, ∀ label ∈ inst.labels, table.get? label = none) ∧
      ∀ label id, table'.get? label = some id ↔
        table.get? label = some id ∨ ∃ inst ∈ insts, inst.id = id ∧ label ∈ inst.labels := by
  induction insts generalizing table with
  | nil =>
    cases h
    simp
  | cons inst rest ih =>
    simp only [collectLabels] at h
    split at h
    · next entered hentered =>
      obtain ⟨nodup, fresh, get⟩ := enterLabels_ok hentered
      obtain ⟨nodupRest, freshRest, getRest⟩ := ih h
      -- A label of a later instruction was not entered before it.
      have later : ∀ other ∈ rest, ∀ label ∈ other.labels,
          label ∉ inst.labels ∧ table.get? label = none := by
        intro other hother label hlabel
        have := freshRest other hother label hlabel
        rw [get] at this
        split at this
        · cases this
        · next hnot => exact ⟨hnot, this⟩
      refine ⟨?_, ?_, ?_⟩
      · rw [List.flatMap_cons]
        refine List.nodup_append.mpr ⟨nodup, nodupRest, ?_⟩
        intro label hlabel label' hlabel' eq
        subst eq
        obtain ⟨other, hother, hin⟩ := List.mem_flatMap.mp hlabel'
        exact (later other hother label hin).1 hlabel
      · intro other hother label hlabel
        rcases List.mem_cons.mp hother with rfl | hin
        · exact fresh label hlabel
        · exact (later other hin label hlabel).2
      · intro label id
        rw [getRest, get]
        constructor
        · rintro (hget | ⟨other, hother, hid, hin⟩)
          · split at hget
            · next hin => exact .inr ⟨inst, List.mem_cons_self, Option.some.inj hget, hin⟩
            · exact .inl hget
          · exact .inr ⟨other, List.mem_cons_of_mem _ hother, hid, hin⟩
        · rintro (hget | ⟨other, hother, hid, hin⟩)
          · have hnot : label ∉ inst.labels := by
              intro hin
              rw [fresh label hin] at hget
              cases hget
            simp [hnot, hget]
          · rcases List.mem_cons.mp hother with rfl | hother
            · exact .inl (by simp [hin, hid])
            · exact .inr ⟨other, hother, hid, hin⟩
    · cases h

theorem link_ok {labels : Table Nat} {index : Nat} {insts linked : List Instruction}
    (h : link labels index insts = (linked, none)) :
    linked.length = insts.length ∧ ∀ k inst, insts[k]? = some inst →
      ∃ succs, linked[k]? = some { inst with successors := succs } ∧
        successors labels (behind (index + insts.length) (index + k)) inst.statement = .ok succs := by
  induction insts generalizing index linked with
  | nil =>
    cases h
    simp
  | cons first rest ih =>
    simp only [link] at h
    split at h
    · cases h
    · next succs hsuccs =>
      obtain ⟨rfl, hnone⟩ := Prod.mk.inj h
      obtain ⟨hlength, hrest⟩ := ih (Prod.ext rfl hnone)
      have hnext : next index rest = behind (index + (first :: rest).length) (index + 0) := by
        cases rest with
        | nil => simp [next, behind]
        | cons second others =>
          have : index + 0 + 1 < index + (first :: second :: others).length := by
            simp only [List.length_cons]
            omega
          simp only [next, behind, List.isEmpty_cons, this, if_true]
          rfl
      refine ⟨by simp [hlength], ?_⟩
      intro k inst hk
      cases k with
      | zero =>
        cases hk
        exact ⟨succs, rfl, hnext ▸ hsuccs⟩
      | succ k =>
        obtain ⟨succs', hget, hok⟩ := hrest k inst hk
        refine ⟨succs', hget, ?_⟩
        have hcount : index + (first :: rest).length = index + 1 + rest.length := by
          simp only [List.length_cons]
          omega
        have hindex : index + (k + 1) = index + 1 + k := by omega
        rw [hcount, hindex]
        exact hok

/-- Linking changes nothing but the successors. -/
theorem link_source {labels : Table Nat} {index k : Nat} {insts linked : List Instruction}
    {inst : Instruction} (h : link labels index insts = (linked, none))
    (hget : linked[k]? = some inst) :
    ∃ old, insts[k]? = some old ∧ inst = { old with successors := inst.successors } ∧
      successors labels (behind (index + insts.length) (index + k)) inst.statement
        = .ok inst.successors := by
  obtain ⟨hlength, hlinked⟩ := link_ok h
  have hlt : k < insts.length := by
    rw [← hlength]
    exact (List.getElem?_eq_some_iff.mp hget).1
  have hold := List.getElem?_eq_getElem hlt
  obtain ⟨succs, hnew, hok⟩ := hlinked k _ hold
  rw [hget] at hnew
  cases hnew
  exact ⟨_, hold, rfl, hok⟩

/-- What does not look at the successors is the same for the linked instructions. -/
theorem map_link {α : Type} {f : Instruction → α}
    (h : ∀ inst succs, f { inst with successors := succs } = f inst) {labels : Table Nat} {index : Nat}
    {insts linked : List Instruction} {unknown? : Option String}
    (hlink : link labels index insts = (linked, unknown?)) : linked.map f = insts.map f := by
  induction insts generalizing index linked unknown? with
  | nil =>
    cases hlink
    rfl
  | cons inst rest ih =>
    simp only [link] at hlink
    split at hlink <;> cases hlink
    · rfl
    · rw [List.map_cons, List.map_cons, h, ih rfl]

end ControlFlow

open ControlFlow (behind)

theorem Method.mem_of_instruction? {method : Method} {id : Nat} {inst : Instruction}
    (h : method.instruction? id = some inst) : inst ∈ method.instructions := by
  cases id with
  | zero => cases h
  | succ index => exact List.mem_of_getElem? h

/-- The control flow of a method is in order. -/
structure Method.Linked (method : Method) : Prop where
  id_eq : ∀ index inst, method.instructions[index]? = some inst → inst.id = index + 1
  label?_iff : ∀ label id, method.label? label = some id ↔
    ∃ inst, method.instruction? id = some inst ∧ label ∈ inst.labels
  labels_nodup : (method.instructions.flatMap Instruction.labels).Nodup
  successors_eq : ∀ index inst, method.instructions[index]? = some inst →
    ControlFlow.successors method.labels (behind method.instructions.length index) inst.statement
      = .ok inst.successors

theorem Method.Linked.exists_of_behind {method : Method} {index id : Nat}
    (h : behind method.instructions.length index = .instruction id) :
    ∃ next, method.instruction? id = some next := by
  unfold behind at h
  split at h
  · next hlt =>
    cases h
    exact ⟨_, List.getElem?_eq_getElem hlt⟩
  · cases h

theorem Method.Linked.exists_of_successor {method : Method} (linked : method.Linked)
    {inst : Instruction} (hinst : inst ∈ method.instructions) {id : Nat}
    (h : .instruction id ∈ inst.successors) : ∃ next, method.instruction? id = some next := by
  obtain ⟨index, hindex⟩ := List.mem_iff_getElem?.mp hinst
  rcases ControlFlow.mem_successors (linked.successors_eq index inst hindex) h with
    hexit | hnext | ⟨label, found, hfound, heq⟩
  · cases hexit
  · exact exists_of_behind hnext.symm
  · cases heq
    obtain ⟨next, hnext, -⟩ := (linked.label?_iff label id).mp hfound
    exact ⟨next, hnext⟩

namespace Draft

theorem getElem?_instructions (draft : Draft) (index : Nat) :
    draft.instructions[index]? = draft.body[index]?.map fun line =>
      { id := index + 1, labels := line.1, successors := [], statement := line.2 } := by
  simp only [instructions, List.getElem?_map, List.getElem?_zipIdx, Option.map_map]
  cases draft.body[index]? <;> simp

theorem id_of_getElem? {draft : Draft} {index : Nat} {inst : Instruction}
    (h : draft.instructions[index]? = some inst) : inst.id = index + 1 := by
  rw [getElem?_instructions] at h
  obtain ⟨line, -, hline⟩ := Option.map_eq_some_iff.mp h
  exact (congrArg Instruction.id hline).symm

theorem build_ok {draft : Draft} {method : Method} (h : draft.build = .ok method) :
    ∃ labels linked, ControlFlow.collectLabels draft.instructions ∅ = .ok labels ∧
      ControlFlow.link labels 0 draft.instructions = (linked, none) ∧
      method = { draft.unlinked with labels, instructions := linked } := by
  unfold build at h
  split at h
  · cases h
  · split at h
    · next relinked hrelink =>
      cases h
      unfold Method.relink at hrelink
      split at hrelink
      · cases hrelink
      · next labels hlabels =>
        obtain ⟨heq, hnone⟩ := Prod.mk.inj hrelink
        refine ⟨labels, (ControlFlow.link labels 0 draft.instructions).1, hlabels, ?_, heq.symm⟩
        exact Prod.ext rfl (Option.map_eq_none_iff.mp hnone)
    · cases h

theorem linked_of_build {draft : Draft} {method : Method} (h : draft.build = .ok method) :
    method.Linked := by
  obtain ⟨labels, linked, hcollect, hlink, rfl⟩ := build_ok h
  obtain ⟨nodup, -, get⟩ := ControlFlow.collectLabels_ok hcollect
  obtain ⟨hlength, hlinked⟩ := ControlFlow.link_ok hlink
  refine ⟨?_, ?_, ?_, ?_⟩
  · intro index inst hget
    obtain ⟨old, hold, heq, -⟩ := ControlFlow.link_source hlink hget
    have hid := id_of_getElem? hold
    rw [heq]
    exact hid
  · intro label id
    show labels.get? label = some id ↔ _
    rw [get, Table.get?_empty]
    constructor
    · rintro (hnone | ⟨old, hold, hid, hin⟩)
      · cases hnone
      · obtain ⟨index, hget⟩ := List.mem_iff_getElem?.mp hold
        obtain ⟨succs, hnew, -⟩ := hlinked index old hget
        rw [← hid, id_of_getElem? hget]
        exact ⟨_, hnew, hin⟩
    · rintro ⟨inst, hinst, hin⟩
      cases id with
      | zero => cases hinst
      | succ index =>
        obtain ⟨old, hold, heq, -⟩ := ControlFlow.link_source hlink hinst
        rw [heq] at hin
        exact .inr ⟨old, List.mem_of_getElem? hold, id_of_getElem? hold, hin⟩
  · show (linked.flatMap Instruction.labels).Nodup
    have hlabels : linked.map Instruction.labels = draft.instructions.map Instruction.labels :=
      ControlFlow.map_link (fun _ _ => rfl) hlink
    rw [List.flatMap_def, hlabels, ← List.flatMap_def]
    exact nodup
  · intro index inst hget
    obtain ⟨old, -, -, hok⟩ := ControlFlow.link_source hlink hget
    rw [Nat.zero_add, Nat.zero_add] at hok
    show ControlFlow.successors labels (behind linked.length index) _ = _
    rw [hlength]
    exact hok

end Draft

end ThreeAddress
