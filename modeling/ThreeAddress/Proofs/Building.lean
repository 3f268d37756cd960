import ThreeAddress.Proofs.Linked

/-!
# What becomes of a draft

A draft is put together in steps, in any order. `Draft.build_outcome` says what building it comes to, in
terms of the steps: a label that waits for an instruction is reported first, then one that is attached
twice, then a jump that leads nowhere, and without any of these the method is the one that was described
(`Method.Renders`). Linking such a method again changes nothing, because linking twice is like linking
once (`Method.relink_relink`).
-/

namespace ThreeAddress

/-- The label is the first of the list that stands there a second time. -/
def FirstRepeated (labels : List String) (label : String) : Prop :=
  ∃ before after, labels = before ++ label :: after ∧ before.Nodup ∧ label ∈ before

theorem FirstRepeated.append {labels : List String} {label : String} (h : FirstRepeated labels label)
    (more : List String) : FirstRepeated (labels ++ more) label := by
  obtain ⟨before, after, rfl, nodup, hin⟩ := h
  exact ⟨before, after ++ more, by simp, nodup, hin⟩

theorem FirstRepeated.not_nodup {labels : List String} {label : String}
    (h : FirstRepeated labels label) : ¬ labels.Nodup := by
  obtain ⟨before, after, rfl, -, hin⟩ := h
  intro nodup
  exact (List.nodup_append.mp nodup).2.2 label hin label List.mem_cons_self rfl

namespace ControlFlow

variable {labels table table' : Table Nat}

-- ---------------------------------------------------------------------------
-- Labels
-- ---------------------------------------------------------------------------

theorem enterLabels_keys {id : Nat} {names : List String} (h : enterLabels id names table = .ok table') :
    table'.keys = table.keys ++ names := by
  induction names generalizing table with
  | nil =>
    cases h
    exact (List.append_nil _).symm
  | cons first rest ih =>
    simp only [enterLabels] at h
    split at h
    · cases h
    · next unknown =>
      have fresh : first ∉ table.keys := mt Table.contains_iff.mpr unknown
      rw [ih h, Table.keys_set_of_not_mem fresh, List.append_assoc, List.singleton_append]

theorem enterLabels_error {id : Nat} {names : List String} {label : String}
    (h : enterLabels id names table = .error label) : FirstRepeated (table.keys ++ names) label := by
  induction names generalizing table with
  | nil => cases h
  | cons first rest ih =>
    simp only [enterLabels] at h
    split at h
    · next known =>
      cases h
      exact ⟨table.keys, rest, rfl, table.keys_nodup, Table.contains_iff.mp known⟩
    · next unknown =>
      have fresh : first ∉ table.keys := mt Table.contains_iff.mpr unknown
      have hrest := ih h
      rwa [Table.keys_set_of_not_mem fresh, List.append_assoc, List.singleton_append] at hrest

theorem collectLabels_keys {insts : List Instruction} (h : collectLabels insts table = .ok table') :
    table'.keys = table.keys ++ insts.flatMap Instruction.labels := by
  induction insts generalizing table with
  | nil =>
    cases h
    exact (List.append_nil _).symm
  | cons inst rest ih =>
    simp only [collectLabels] at h
    split at h
    · next hentered => rw [ih h, enterLabels_keys hentered, List.flatMap_cons, List.append_assoc]
    · cases h

theorem collectLabels_error {insts : List Instruction} {label : String}
    (h : collectLabels insts table = .error label) :
    FirstRepeated (table.keys ++ insts.flatMap Instruction.labels) label := by
  induction insts generalizing table with
  | nil => cases h
  | cons inst rest ih =>
    simp only [collectLabels] at h
    rw [List.flatMap_cons, ← List.append_assoc]
    split at h
    · next hentered =>
      rw [← enterLabels_keys hentered]
      exact ih h
    · next hrepeated =>
      cases h
      exact (enterLabels_error hrepeated).append _

/-- The labels of a body can be collected exactly if none is attached twice. -/
theorem exists_labels_iff {insts : List Instruction} :
    (∃ labels, collectLabels insts ∅ = .ok labels) ↔ (insts.flatMap Instruction.labels).Nodup := by
  constructor
  · rintro ⟨labels, h⟩
    exact (collectLabels_ok h).1
  · intro nodup
    cases h : collectLabels insts ∅ with
    | ok labels => exact ⟨labels, rfl⟩
    | error label => exact absurd nodup (collectLabels_error h).not_nodup

-- ---------------------------------------------------------------------------
-- Jumps
-- ---------------------------------------------------------------------------

theorem jump?_of_error {next : Successor} {statement : Statement} {label : String}
    (h : successors labels next statement = .error label) :
    statement.jump? = some label ∧ labels.contains label = false := by
  have unknown : ∀ written, labels.get? written = none → labels.contains written = false := by
    intro written hget
    rw [Table.contains, hget]
    rfl
  cases statement with
  | goto written | branch condition written =>
    simp only [successors, target] at h
    cases hget : labels.get? written with
    | none =>
      rw [hget] at h
      cases h
      exact ⟨rfl, unknown _ hget⟩
    | some id =>
      rw [hget] at h
      cases h
  | _ => cases h

theorem contains_of_ok {next : Successor} {statement : Statement} {succs : List Successor}
    (h : successors labels next statement = .ok succs) {label : String}
    (hjump : statement.jump? = some label) : labels.contains label = true := by
  cases statement with
  | goto written =>
    cases hjump
    obtain ⟨id, hget, -⟩ := successors_goto.mp h
    rw [Table.contains, hget]
    rfl
  | branch condition written =>
    cases hjump
    obtain ⟨id, hget, -⟩ := successors_branch.mp h
    rw [Table.contains, hget]
    rfl
  | _ => cases hjump

/-- Linking reports the first jump whose label is not in the table. -/
theorem link_snd (labels : Table Nat) (index : Nat) (insts : List Instruction) :
    (link labels index insts).2 = ((insts.map Instruction.statement).filterMap Statement.jump?).find?
      fun label => !labels.contains label := by
  induction insts generalizing index with
  | nil => rfl
  | cons inst rest ih =>
    simp only [link, List.map_cons]
    split
    · next label herror =>
      obtain ⟨hjump, unknown⟩ := jump?_of_error herror
      rw [List.filterMap_cons_some hjump, List.find?_cons_of_pos (by simp [unknown])]
    · next succs hok =>
      rw [ih]
      cases hjump : inst.statement.jump? with
      | none => rw [List.filterMap_cons_none hjump]
      | some label =>
        rw [List.filterMap_cons_some hjump,
          List.find?_cons_of_neg (by simp [contains_of_ok hok hjump])]

-- ---------------------------------------------------------------------------
-- Linking again
-- ---------------------------------------------------------------------------

theorem collectLabels_link (labels : Table Nat) (index : Nat) (insts : List Instruction)
    (table : Table Nat) :
    collectLabels (link labels index insts).1 table = collectLabels insts table := by
  induction insts generalizing index table with
  | nil => rfl
  | cons inst rest ih =>
    simp only [link]
    split
    · rfl
    · simp only [collectLabels, ih]

theorem isEmpty_link (labels : Table Nat) (index : Nat) (insts : List Instruction) :
    (link labels index insts).1.isEmpty = insts.isEmpty := by
  cases insts with
  | nil => rfl
  | cons inst rest =>
    simp only [link]
    split <;> rfl

theorem link_link (labels : Table Nat) (index : Nat) (insts : List Instruction) :
    link labels index (link labels index insts).1 = link labels index insts := by
  induction insts generalizing index with
  | nil => rfl
  | cons inst rest ih =>
    cases h : successors labels (next index rest) inst.statement with
    | error label => simp only [link, h]
    | ok succs =>
      have hnext : next index (link labels (index + 1) rest).1 = next index rest := by
        rw [next, next, isEmpty_link]
      simp only [link, h, hnext, ih]

end ControlFlow

/-- Where control goes from a statement that is followed by `next`. -/
inductive Leads (label? : String → Option Nat) (next : Successor) : Statement → List Successor → Prop
  | goto {label : String} {id : Nat} :
    label? label = some id → Leads label? next (.goto label) [.instruction id]
  | branch {condition : Condition} {label : String} {id : Nat} :
    label? label = some id → Leads label? next (.branch condition label) [.instruction id, next]
  | ret (value? : Option Element) (ty : Ty) : Leads label? next (.ret value? ty) [.exit]
  | onward {statement : Statement} : statement.jump? = none → (∀ value? ty, statement ≠ .ret value? ty) →
    Leads label? next statement [next]

theorem ControlFlow.leads_of_ok {labels : Table Nat} {next : Successor} {statement : Statement}
    {succs : List Successor} (h : successors labels next statement = .ok succs) :
    Leads labels.get? next statement succs := by
  cases statement with
  | goto label =>
    obtain ⟨id, hid, rfl⟩ := successors_goto.mp h
    exact .goto hid
  | branch condition label =>
    obtain ⟨id, hid, rfl⟩ := successors_branch.mp h
    exact .branch hid
  | ret value? ty =>
    cases h
    exact .ret value? ty
  | _ =>
    cases h
    exact .onward rfl fun _ _ heq => nomatch heq

/-- The method is what the lines say: statements with the labels that are attached to them. -/
structure Method.Renders (method : Method) (lines : List (List String × Statement)) : Prop where
  lines_eq : method.instructions.map (fun inst => (inst.labels, inst.statement)) = lines
  ids_eq : method.instructions.map Instruction.id = List.range' 1 lines.length
  label?_iff : ∀ label id, method.label? label = some id ↔
    ∃ inst ∈ method.instructions, inst.id = id ∧ label ∈ inst.labels
  leads : ∀ inst ∈ method.instructions,
    Leads method.label? (if inst.id < lines.length then .instruction (inst.id + 1) else .exit)
      inst.statement inst.successors
  within : ∀ inst ∈ method.instructions, ∀ id, .instruction id ∈ inst.successors →
    1 ≤ id ∧ id ≤ lines.length

theorem Method.Linked.instruction?_iff {method : Method} (linked : method.Linked) {id : Nat}
    {inst : Instruction} :
    method.instruction? id = some inst ↔ inst ∈ method.instructions ∧ inst.id = id := by
  constructor
  · intro h
    refine ⟨mem_of_instruction? h, ?_⟩
    cases id with
    | zero => cases h
    | succ index => exact linked.id_eq index inst h
  · rintro ⟨hinst, rfl⟩
    obtain ⟨index, hindex⟩ := List.mem_iff_getElem?.mp hinst
    rw [linked.id_eq index inst hindex]
    exact hindex

theorem Method.Linked.renders {method : Method} (linked : method.Linked) :
    method.Renders (method.instructions.map fun inst => (inst.labels, inst.statement)) := by
  refine ⟨rfl, ?_, ?_, ?_, ?_⟩
  · refine List.ext_getElem? fun index => ?_
    rw [List.getElem?_map, List.length_map]
    cases hget : method.instructions[index]? with
    | none =>
      have hlength := List.getElem?_eq_none_iff.mp hget
      rw [List.getElem?_eq_none (by simpa using hlength)]
      rfl
    | some inst =>
      have hlt := (List.getElem?_eq_some_iff.mp hget).1
      rw [Option.map_some, linked.id_eq index inst hget, List.getElem?_range' hlt, Nat.one_mul,
        Nat.add_comm]
  · intro label id
    rw [linked.label?_iff]
    simp only [linked.instruction?_iff, and_assoc]
  · intro inst hinst
    obtain ⟨index, hindex⟩ := List.mem_iff_getElem?.mp hinst
    rw [List.length_map, linked.id_eq index inst hindex]
    exact ControlFlow.leads_of_ok (linked.successors_eq index inst hindex)
  · intro inst hinst id hid
    obtain ⟨next, hnext⟩ := linked.exists_of_successor hinst hid
    rw [List.length_map]
    cases id with
    | zero => cases hnext
    | succ index => exact ⟨Nat.succ_pos index, (List.getElem?_eq_some_iff.mp hnext).1⟩

theorem Method.relink_relink (method : Method) : method.relink.1.relink = method.relink := by
  cases h : ControlFlow.collectLabels method.instructions ∅ with
  | error label =>
    have hrelink : method.relink = (method, some (.duplicateLabel method.name label)) := by
      simp only [relink, h]
    rw [hrelink]
    exact hrelink
  | ok labels => simp only [relink, h, ControlFlow.collectLabels_link, ControlFlow.link_link]

namespace Draft

variable {draft : Draft}

-- ---------------------------------------------------------------------------
-- Building
-- ---------------------------------------------------------------------------

theorem lines_instructions (draft : Draft) :
    draft.instructions.map (fun inst => (inst.labels, inst.statement)) = draft.body := by
  simp only [instructions, List.map_map]
  exact List.zipIdx_map_fst 0 draft.body

theorem labels_instructions (draft : Draft) :
    draft.instructions.flatMap Instruction.labels = draft.body.flatMap Prod.fst := by
  rw [← draft.lines_instructions, List.flatMap_map]

theorem statements_instructions (draft : Draft) :
    draft.instructions.map Instruction.statement = draft.body.map Prod.snd := by
  rw [← draft.lines_instructions, List.map_map]
  rfl

/-- The label of the first jump of the body that leads nowhere. -/
def lostJump? (body : List (List String × Statement)) : Option String :=
  ((body.map Prod.snd).filterMap Statement.jump?).find? fun label =>
    decide (label ∉ body.flatMap Prod.fst)

theorem build_of_pending {label : String} {rest : List String} (h : draft.pending = label :: rest) :
    draft.build = .error (.danglingLabel draft.name label) := by
  simp only [build, h]

theorem build_of_repeated {label : String} (hpending : draft.pending = [])
    (h : ControlFlow.collectLabels draft.instructions ∅ = .error label) :
    draft.build = .error (.duplicateLabel draft.name label) := by
  have hrelink : draft.unlinked.relink = (draft.unlinked, some (.duplicateLabel draft.name label)) := by
    unfold Method.relink
    rw [show draft.unlinked.instructions = draft.instructions from rfl, h]
    rfl
  simp only [build, hpending, hrelink]

theorem build_of_collected {labels : Table Nat} (hpending : draft.pending = [])
    (h : ControlFlow.collectLabels draft.instructions ∅ = .ok labels) :
    draft.build = match lostJump? draft.body with
      | some label => .error (.unknownLabel draft.name label)
      | none => .ok draft.unlinked.relink.1 := by
  have hkeys : labels.keys = draft.body.flatMap Prod.fst := by
    rw [ControlFlow.collectLabels_keys h, draft.labels_instructions]
    rfl
  have hlost : (ControlFlow.link labels 0 draft.instructions).2 = lostJump? draft.body := by
    have htest : (fun label => !labels.contains label)
        = fun label => decide (label ∉ draft.body.flatMap Prod.fst) := by
      funext label
      rw [Bool.eq_iff_iff, ← hkeys]
      simp [← Table.contains_iff]
    rw [ControlFlow.link_snd, draft.statements_instructions, htest]
    rfl
  have hrelink : draft.unlinked.relink = (draft.unlinked.relink.1,
      (lostJump? draft.body).map (ControlFlowFault.unknownLabel draft.name)) := by
    refine Prod.ext rfl ?_
    unfold Method.relink
    rw [show draft.unlinked.instructions = draft.instructions from rfl, h, ← hlost]
    rfl
  simp only [build, hpending]
  rw [hrelink]
  cases lostJump? draft.body <;> rfl

theorem build_of_nodup (hpending : draft.pending = []) (nodup : (draft.body.flatMap Prod.fst).Nodup) :
    draft.build = match lostJump? draft.body with
      | some label => .error (.unknownLabel draft.name label)
      | none => .ok draft.unlinked.relink.1 := by
  rw [← draft.labels_instructions] at nodup
  obtain ⟨labels, h⟩ := ControlFlow.exists_labels_iff.mpr nodup
  exact build_of_collected hpending h

theorem firstRepeated_of_build {name label : String} (hpending : draft.pending = [])
    (h : draft.build = .error (.duplicateLabel name label)) :
    FirstRepeated (draft.body.flatMap Prod.fst) label := by
  cases hcollect : ControlFlow.collectLabels draft.instructions ∅ with
  | error found =>
    rw [build_of_repeated hpending hcollect] at h
    cases h
    rw [← draft.labels_instructions]
    exact ControlFlow.collectLabels_error hcollect
  | ok labels =>
    rw [build_of_collected hpending hcollect] at h
    split at h <;> cases h

theorem exists_repeated_of_not_nodup (hpending : draft.pending = [])
    (repeated : ¬ (draft.body.flatMap Prod.fst).Nodup) :
    ∃ label, draft.build = .error (.duplicateLabel draft.name label) := by
  rw [← draft.labels_instructions, ← ControlFlow.exists_labels_iff] at repeated
  cases hcollect : ControlFlow.collectLabels draft.instructions ∅ with
  | error label => exact ⟨label, build_of_repeated hpending hcollect⟩
  | ok labels => exact absurd ⟨labels, hcollect⟩ repeated

theorem relink_of_build {method : Method} (h : draft.build = .ok method) :
    method.relink = (method, none) := by
  unfold build at h
  split at h
  · cases h
  · split at h
    · next hrelink =>
      cases h
      have again := draft.unlinked.relink_relink
      rwa [hrelink] at again
    · cases h

theorem renders_of_build {method : Method} (h : draft.build = .ok method) :
    method.Renders draft.body := by
  have renders := (linked_of_build h).renders
  obtain ⟨labels, linked, -, hlink, rfl⟩ := build_ok h
  rwa [ControlFlow.map_link (fun _ _ => rfl) hlink, draft.lines_instructions] at renders

-- ---------------------------------------------------------------------------
-- Steps
-- ---------------------------------------------------------------------------

/-- What a draft starts as. -/
inductive Heading where
  | method (name : String) (ret : Ty)
  | constructor
  deriving DecidableEq, Repr

inductive Step where
  | push (statement : Statement)
  | label (label : String)
  | param (name : String) (ty : Ty)
  | returns (ty : Ty)
  | access (access : Access)
  | setStatic (isStatic : Bool)
  | setFinal (isFinal : Bool)
  deriving DecidableEq, Repr

def Heading.start : Heading → Draft
  | .method name ret => .new name ret
  | .constructor => .constructor

def take (draft : Draft) : Step → Draft
  | .push statement => draft.push statement
  | .label label => draft.label label
  | .param name ty => draft.addParam name ty
  | .returns ty => { draft with ret := ty }
  | .access access => { draft with access }
  | .setStatic isStatic => { draft with isStatic }
  | .setFinal isFinal => { draft with isFinal }

/-- The draft after the given steps from a heading on. -/
def ofSteps (heading : Heading) (steps : List Step) : Draft := steps.foldl take heading.start

/-- The statements that the steps push, each with the labels since the push before it. The labels in
`waiting` come before the first step. -/
def Step.lines (waiting : List String) : List Step → List (List String × Statement)
  | [] => []
  | .push statement :: rest => (waiting, statement) :: Step.lines [] rest
  | .label name :: rest => Step.lines (waiting ++ [name]) rest
  | _ :: rest => Step.lines waiting rest

/-- The labels since the last push. -/
def Step.waiting (waiting : List String) : List Step → List String
  | [] => waiting
  | .push _ :: rest => Step.waiting [] rest
  | .label name :: rest => Step.waiting (waiting ++ [name]) rest
  | _ :: rest => Step.waiting waiting rest

theorem foldl_take (steps : List Step) (draft : Draft) :
    (steps.foldl take draft).body = draft.body ++ Step.lines draft.pending steps ∧
      (steps.foldl take draft).pending = Step.waiting draft.pending steps ∧
      (steps.foldl take draft).name = draft.name := by
  induction steps generalizing draft with
  | nil => exact ⟨(List.append_nil _).symm, rfl, rfl⟩
  | cons step rest ih =>
    obtain ⟨hbody, hpending, hname⟩ := ih (draft.take step)
    rw [List.foldl_cons, hbody, hpending, hname]
    cases step with
    | push statement =>
      refine ⟨?_, rfl, rfl⟩
      rw [Step.lines, ← List.singleton_append, ← List.append_assoc]
      rfl
    | _ => exact ⟨rfl, rfl, rfl⟩

def Heading.name (heading : Heading) : String := heading.start.name

theorem ofSteps_spec (heading : Heading) (steps : List Step) :
    (ofSteps heading steps).body = Step.lines [] steps ∧
      (ofSteps heading steps).pending = Step.waiting [] steps ∧
      (ofSteps heading steps).name = heading.name := by
  have start : heading.start.body = [] ∧ heading.start.pending = [] := by
    cases heading <;> exact ⟨rfl, rfl⟩
  have spec := foldl_take steps heading.start
  rw [start.1, start.2] at spec
  exact spec

/-- A label that waits for an instruction comes first, then a label that is attached twice, then a jump
that leads nowhere. A draft without these is built as it was described, and linking the method anew
changes nothing. -/
theorem build_outcome (heading : Heading) (steps : List Step) :
    let draft := ofSteps heading steps
    let lines := Step.lines [] steps
    let attached := lines.flatMap Prod.fst
    let jumps := (lines.map Prod.snd).filterMap Statement.jump?
    (∀ label rest, Step.waiting [] steps = label :: rest →
      draft.build = .error (.danglingLabel heading.name label)) ∧
    (Step.waiting [] steps = [] →
      ((∃ label, draft.build = .error (.duplicateLabel heading.name label)) ↔ ¬ attached.Nodup) ∧
      (∀ label, draft.build = .error (.duplicateLabel heading.name label) → FirstRepeated attached label) ∧
      (attached.Nodup →
        (∀ label, draft.build = .error (.unknownLabel heading.name label) ↔
          jumps.find? (fun jump => decide (jump ∉ attached)) = some label) ∧
        ((∀ label ∈ jumps, label ∈ attached) →
          ∃ method, draft.build = .ok method ∧ method.Renders lines ∧ method.relink = (method, none)))) := by
  obtain ⟨hbody, hpending, hname⟩ := ofSteps_spec heading steps
  rw [← hbody, ← hpending, ← hname]
  generalize ofSteps heading steps = draft
  intro _ lines attached jumps
  refine ⟨fun label rest => build_of_pending, fun hwaiting => ⟨⟨?_, ?_⟩, ?_, fun nodup => ⟨?_, ?_⟩⟩⟩
  · rintro ⟨label, h⟩
    exact (firstRepeated_of_build hwaiting h).not_nodup
  · exact exists_repeated_of_not_nodup hwaiting
  · exact fun label => firstRepeated_of_build hwaiting
  · intro label
    show draft.build = _ ↔ lostJump? draft.body = some label
    rw [build_of_nodup hwaiting nodup]
    cases lostJump? draft.body <;> simp
  · intro known
    have hnone : lostJump? draft.body = none := by
      refine List.find?_eq_none.mpr fun label hlabel hlost => ?_
      exact of_decide_eq_true hlost (known label hlabel)
    have hbuild := build_of_nodup hwaiting nodup
    rw [hnone] at hbuild
    exact ⟨_, hbuild, renders_of_build hbuild, relink_of_build hbuild⟩

def countHeading : Heading := .method "count" .int32

def countSteps : List Step :=
  [.param "n" .int32, .label "top", .label "again", .push (.branch (.single (.operand "n" .int32)) "out"),
    .push (.goto "again"), .setStatic true, .label "out", .access .priv,
    .push (.ret (some (.operand "n" .int32)) .int32)]

def countLines : List (List String × Statement) :=
  [(["top", "again"], .branch (.single (.operand "n" .int32)) "out"), ([], .goto "again"),
    (["out"], .ret (some (.operand "n" .int32)) .int32)]

/-- The steps as they are, and with more steps that are at fault. -/
theorem build_outcome_count :
    (∃ method, (ofSteps countHeading countSteps).build = .ok method ∧ method.Renders countLines ∧
      method.relink = (method, none)) ∧
    (ofSteps countHeading (countSteps ++ [.label "rest", .label "top"])).build
      = .error (.danglingLabel "count" "rest") ∧
    (∃ label, (ofSteps countHeading (countSteps ++ [.label "top", .push (.goto "away")])).build
      = .error (.duplicateLabel "count" label)) ∧
    (ofSteps countHeading (countSteps ++ [.push (.goto "away"), .push (.goto "top")])).build
      = .error (.unknownLabel "count" "away") := by
  refine ⟨?_, ?_, ?_, ?_⟩
  · exact ((build_outcome countHeading countSteps).2 rfl).2.2 (by decide) |>.2 (by decide)
  · exact (build_outcome countHeading _).1 "rest" ["top"] rfl
  · exact ((build_outcome countHeading _).2 rfl).1.mpr (by decide)
  · exact ((build_outcome countHeading _).2 rfl).2.2 (by decide) |>.1 "away" |>.mpr (by decide)

end Draft

end ThreeAddress
