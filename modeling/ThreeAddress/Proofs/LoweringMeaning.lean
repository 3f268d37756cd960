import ThreeAddress.Proofs.ScalarCode
import ThreeAddress.Proofs.StackLimits

/-!
# Lowering keeps the meaning of scalar methods

`Site.Matched` puts a state of the direct run next to a state of the machine: the machine is at the code
of the instruction, perhaps behind some of its labels, with an empty stack and the same registers. From
there both get on to matched states again, or both end alike (`Site.stages_of_laid`). Where the code
jumps over a chain of `goto`s, the direct run takes several steps to one of the machine; everywhere else
it is the other way round.
-/

namespace ThreeAddress

open Relation (TransGen ReflTransGen)
open ControlFlow (behind)

-- ---------------------------------------------------------------------------
-- Scalar methods have no fused chunks
-- ---------------------------------------------------------------------------

theorem Construction.of?_of_scalar {inst next : Instruction} (h : inst.statement.isScalar = true) :
    Construction.of? inst next = none := by
  unfold Construction.of?
  split
  · next hassign _ =>
    rw [hassign] at h
    simp [Statement.isScalar, Statement.isScalarValue] at h
  · rfl

theorem Chunk.ofInstructions_of_scalar {insts : List Instruction}
    (h : ∀ inst ∈ insts, inst.statement.isScalar = true) :
    ofInstructions insts = insts.map .single := by
  fun_induction ofInstructions insts with
  | case1 => rfl
  | case2 inst => rfl
  | case3 inst next rest construction hfused _ =>
    rw [Construction.of?_of_scalar (h inst List.mem_cons_self)] at hfused
    cases hfused
  | case4 inst next rest _ ih =>
    rw [ih fun other hother => h other (List.mem_cons_of_mem _ hother)]
    rfl

namespace Site

variable {site : Site} {n n' : Nat}

-- ---------------------------------------------------------------------------
-- Matched states
-- ---------------------------------------------------------------------------

/-- The body is that of the method, with `ending` behind the code of the last instruction. -/
structure Laid (site : Site) (body ending : List Item) : Prop where
  unique : (labelsOf body).Nodup
  emitted : ∃ n n' items, site.Emitted n (site.method.instructions.map .single) items n' ∧
    body = items ++ ending
  closed : ending = ops [.ret] ∨ ending = [] ∧ Frame.EndsClosed body

/-- The code of an instruction stands in the body, with the code of the later ones behind it. -/
structure Running (site : Site) (body ending : List Item) (index : Nat) (inst : Instruction)
    (code rest : List Item) : Prop where
  inst_eq : site.method.instructions[index]? = some inst
  code_eq : ∃ n k, site.statement inst.statement n = (.ok code, k)
  rest_eq : ∃ k n' others, rest = others ++ ending ∧
    site.Emitted k ((site.method.instructions.drop (index + 1)).map .single) others n'
  suffix : code ++ rest <:+ body

inductive Matched (site : Site) (body ending : List Item) : DirectState → Machine → Prop
  | running {index : Nat} {inst : Instruction} {labels : List String} {code rest : List Item}
    {registers : Nat → Int32} :
    site.Running body ending index inst code rest → labels <:+ inst.labels →
    Matched site body ending ⟨.instruction (index + 1), registers⟩
      ⟨labels.map .label ++ (code ++ rest), [], registers⟩
  | finished {registers : Nat → Int32} :
    Matched site body ending ⟨.exit, registers⟩ ⟨ops [.ret], [], registers⟩

variable {body ending : List Item} {registers : Nat → Int32}

theorem emitted_drop {index k : Nat} {inst : Instruction} {items : List Item}
    (hinst : site.method.instructions[index]? = some inst)
    (h : site.Emitted k ((site.method.instructions.drop index).map .single) items n') :
    ∃ code k' others, site.statement inst.statement k = (.ok code, k') ∧
      site.Emitted k' ((site.method.instructions.drop (index + 1)).map .single) others n' ∧
      items = inst.labels.map .label ++ code ++ others := by
  obtain ⟨hlt, hget⟩ := List.getElem?_eq_some_iff.mp hinst
  rw [List.drop_eq_getElem_cons hlt, hget] at h
  exact emitted_cons.mp h

/-- The start of the code of an instruction. -/
theorem matched_drop {index k : Nat} {inst : Instruction} {items : List Item}
    (hinst : site.method.instructions[index]? = some inst)
    (hitems : site.Emitted k ((site.method.instructions.drop index).map .single) items n')
    (hsuffix : items ++ ending <:+ body) :
    site.Matched body ending ⟨.instruction (index + 1), registers⟩ ⟨items ++ ending, [], registers⟩ := by
  obtain ⟨code, k', others, hcode, hothers, rfl⟩ := emitted_drop hinst hitems
  rw [List.append_assoc, List.append_assoc] at hsuffix ⊢
  exact .running ⟨hinst, ⟨k, k', hcode⟩, ⟨k', n', others, rfl, hothers⟩,
    (List.suffix_append _ _).trans hsuffix⟩ (List.suffix_refl _)

/-- Control gets past the code of an instruction. -/
theorem matched_behind {index : Nat} {inst : Instruction} {code rest : List Item}
    (laid : site.Laid body ending) (running : site.Running body ending index inst code rest)
    (scalar : inst.statement.isScalar = true) (hthrough : inst.statement.leaves = false)
    (registers : Nat → Int32) : site.Matched body ending ⟨behind site.method.instructions.length index, registers⟩
      ⟨rest, [], registers⟩ := by
  obtain ⟨k, n', others, rfl, hothers⟩ := running.rest_eq
  unfold behind
  split
  · next hlt =>
    exact matched_drop (List.getElem?_eq_getElem hlt) hothers
      ((List.suffix_append code _).trans running.suffix)
  · next hend =>
    rw [List.drop_eq_nil_of_le (Nat.not_lt.mp hend)] at hothers
    obtain ⟨rfl, -⟩ := emitted_nil.mp hothers
    rcases laid.closed with rfl | ⟨rfl, last, hlast, hterminator⟩
    · exact .finished
    · -- The body would end in an instruction that lets control through.
      obtain ⟨_, _, hcode⟩ := running.code_eq
      obtain ⟨before, op, rfl, hleaves⟩ := statement_last scalar hcode
      obtain ⟨first, rfl⟩ := running.suffix
      rw [List.append_nil, List.append_nil, List.getLast?_append, List.getLast?_append] at hlast
      cases hlast
      rw [hleaves, hthrough] at hterminator
      cases hterminator

theorem matched_landing (linked : site.method.Linked) (laid : site.Laid body ending)
    {label : String} {id : Nat} (h : site.method.label? label = some id) :
    site.Matched body ending ⟨.instruction id, registers⟩ ⟨landing body label, [], registers⟩ := by
  obtain ⟨inst, hinst, hlabel⟩ := (linked.label?_iff label id).mp h
  obtain ⟨n, n', items, hitems, hbody⟩ := laid.emitted
  cases id with
  | zero => cases hinst
  | succ index =>
    have hsplit : site.method.instructions.map Chunk.single
        = (site.method.instructions.take index).map .single
          ++ (site.method.instructions.drop index).map .single := by
      rw [← List.map_append, List.take_append_drop]
    rw [hsplit] at hitems
    obtain ⟨before, rest, k, rfl, -, hrest⟩ := hitems.split
    obtain ⟨code, k', others, hcode, hothers, rfl⟩ := emitted_drop hinst hrest
    obtain ⟨passed, labels, hlabels⟩ := List.append_of_mem hlabel
    have hplace : body = (before ++ passed.map .label)
        ++ ((label :: labels).map .label ++ (code ++ (others ++ ending))) := by
      rw [hbody, hlabels, List.map_append]
      simp only [List.append_assoc]
    have hlanding : landing body label
        = (label :: labels).map .label ++ (code ++ (others ++ ending)) :=
      landing_of_nodup laid.unique ⟨_, hplace.symm⟩
    rw [hlanding]
    refine .running ⟨hinst, ⟨k, k', hcode⟩, ⟨k', n', others, rfl, hothers⟩, ?_⟩ ⟨passed, hlabels.symm⟩
    exact (List.suffix_append _ _).trans ⟨_, hplace.symm⟩

end Site

theorem Method.Forwards.goes {method : Method} (linked : method.Linked) {id last : Nat}
    (h : method.Forwards id last) (registers : Nat → Int32) :
    ReflTransGen (Goes method.stepDirect) ⟨.instruction id, registers⟩
      ⟨.instruction last, registers⟩ := by
  induction h with
  | refl id => exact .refl
  | step hinst hgoto hlabel _ ih =>
    obtain ⟨next, hnext, hsuccs⟩ := linked.label?_of_goto hinst hgoto
    cases hnext.symm.trans hlabel
    refine .head ?_ ih
    simp only [Goes, Method.stepDirect, hinst, Method.performDirect, Instruction.decide?, hgoto, hsuccs]

-- ---------------------------------------------------------------------------
-- Stages
-- ---------------------------------------------------------------------------

namespace Site

open Machine (Yields)

variable {site : Site} {body ending : List Item}

/-- One stage of the two runs. -/
def Stage (site : Site) (body ending : List Item) (direct : DirectState) (machine : Machine) : Prop :=
  (∃ final final', Halts site.method.stepDirect direct final ∧
      Halts (Machine.step body) machine final' ∧ final = final') ∨
    ∃ direct' machine', TransGen (Goes site.method.stepDirect) direct direct' ∧
      TransGen (Goes (Machine.step body)) machine machine' ∧
      site.Matched body ending direct' machine'

theorem stage_of_yields {direct : DirectState} {machine : Machine} {result : Evaluated}
    {after : Int32 → Machine} (yields : Yields body machine result after)
    (hword : ∀ word, result = .word word → ∃ direct',
      TransGen (Goes site.method.stepDirect) direct direct' ∧
        site.Matched body ending direct' (after word))
    (htrap : result = .trap → site.method.stepDirect direct = .done ⟨.trap, machine.registers⟩) :
    site.Stage body ending direct machine := by
  cases result with
  | word word =>
    obtain ⟨direct', goes, hmatched⟩ := hword word rfl
    exact .inr ⟨direct', after word, goes, yields, hmatched⟩
  | trap => exact .inl ⟨_, _, halts_of_done (htrap rfl), yields, rfl⟩

theorem stage_of_goes {direct : DirectState} {machine middle : Machine}
    (h : ReflTransGen (Goes (Machine.step body)) machine middle)
    (stage : site.Stage body ending direct middle) : site.Stage body ending direct machine := by
  rcases stage with ⟨final, final', halts, halts', same⟩ | ⟨direct', machine', goes, goes', hmatched⟩
  · exact .inl ⟨final, final', halts, halts'.of_goes h, same⟩
  · exact .inr ⟨direct', machine', goes, TransGen.trans_right h goes', hmatched⟩

section

variable {index : Nat} {inst : Instruction} {code rest : List Item} {registers : Nat → Int32}

theorem stepDirect_of_running (running : site.Running body ending index inst code rest) :
    site.method.stepDirect ⟨.instruction (index + 1), registers⟩
      = site.method.performDirect inst registers := by
  simp only [Method.stepDirect, Method.instruction?, running.inst_eq]

theorem stage_of_assign (linked : site.method.Linked) (declares : site.method.Declares)
    (laid : site.Laid body ending) (running : site.Running body ending index inst code rest)
    {name : String} {ty ty' : Ty} {rhs : Statement}
    (hstatement : inst.statement = .assign (.operand name ty) ty' rhs)
    (scalar : inst.statement.isScalar = true) :
    site.Stage body ending ⟨.instruction (index + 1), registers⟩ ⟨code ++ rest, [], registers⟩ := by
  have hmem := List.mem_of_getElem? running.inst_eq
  have known := declares.known hmem registers
  have hsuccs := linked.successors_eq index inst running.inst_eq
  obtain ⟨n, k, hcode⟩ := running.code_eq
  have hthrough : inst.statement.leaves = false := by rw [hstatement]; rfl
  have hmatched := matched_behind laid running scalar hthrough
  rw [hstatement] at scalar known hsuccs hcode
  obtain ⟨hty, hrhs⟩ := (Bool.and_eq_true _ _).mp scalar
  have hdef : name ∈ inst.statement.defs := by
    simp [hstatement, Statement.defs, Statement.def?, Element.name?, Ty.isClassRef_of_isScalar hty]
  obtain ⟨register, hregister⟩ := Method.exists_register? (declares inst hmem name (.inl hdef))
  obtain ⟨result, hresult⟩ := Statement.evaluate?_of_scalar hrhs known
  have hbehind : inst.successors = [behind site.method.instructions.length index] :=
    (Except.ok.inj hsuccs).symm
  refine stage_of_yields
    (assign_yields hty hrhs laid.unique running.suffix hregister hcode hresult) ?_ ?_
  · rintro word rfl
    refine ⟨_, .single ?_, hmatched _⟩
    simp only [Goes, stepDirect_of_running running, Method.performDirect, Instruction.decide?,
      hstatement, hbehind, hresult, Option.map_some, hregister]
  · rintro rfl
    simp only [stepDirect_of_running running, Method.performDirect, Instruction.decide?, hstatement,
      hbehind, hresult, Option.map_some]

theorem stage_of_goto (linked : site.method.Linked) (laid : site.Laid body ending)
    (running : site.Running body ending index inst code rest) {label : String}
    (hstatement : inst.statement = .goto label) :
    site.Stage body ending ⟨.instruction (index + 1), registers⟩ ⟨code ++ rest, [], registers⟩ := by
  obtain ⟨id, hid, hnext⟩ :=
    @Method.Linked.label?_of_goto _ linked (index + 1) _ _ running.inst_eq hstatement
  obtain ⟨target, targetId, htarget, htargetId, forwards⟩ := follow_ok linked hid
  obtain ⟨n, k, hcode⟩ := running.code_eq
  simp only [hstatement, Site.statement, htarget, Emit.bind_ok, Emit.lift_ok, Emit.pure_ok] at hcode
  obtain ⟨_, _, ⟨heq, -⟩, rfl, -⟩ := hcode
  cases heq
  refine .inr ⟨⟨.instruction targetId, registers⟩, ⟨landing body target, [], registers⟩,
    .head' ?_ (forwards.goes linked registers), .single rfl, matched_landing linked laid htargetId⟩
  simp only [Goes, stepDirect_of_running running, Method.performDirect, Instruction.decide?,
    hstatement, hnext]

theorem stage_of_branch (linked : site.method.Linked) (declares : site.method.Declares)
    (laid : site.Laid body ending) (running : site.Running body ending index inst code rest)
    {condition : Condition} {label : String} (hstatement : inst.statement = .branch condition label)
    (scalar : inst.statement.isScalar = true) :
    site.Stage body ending ⟨.instruction (index + 1), registers⟩ ⟨code ++ rest, [], registers⟩ := by
  have known := declares.known (List.mem_of_getElem? running.inst_eq) registers
  obtain ⟨id, hid, hboth⟩ := linked.label?_of_branch running.inst_eq hstatement
  obtain ⟨target, targetId, htarget, htargetId, forwards⟩ := follow_ok linked hid
  have hthrough : inst.statement.leaves = false := by rw [hstatement]; rfl
  have hmatched := matched_behind laid running scalar hthrough registers
  rw [hstatement] at scalar known
  obtain ⟨result, hresult⟩ := Condition.evaluate?_of_scalar scalar known
  obtain ⟨n, k, hcode⟩ := running.code_eq
  simp only [hstatement, Site.statement, htarget, Emit.bind_ok, Emit.lift_ok] at hcode
  obtain ⟨_, _, ⟨heq, -⟩, hbranch⟩ := hcode
  cases heq
  refine stage_of_yields (branchTo_yields scalar hbranch hresult) ?_ ?_
  · rintro word rfl
    by_cases hzero : word = 0
    · refine ⟨⟨behind site.method.instructions.length index, registers⟩, .single ?_, ?_⟩
      · simp only [Goes, stepDirect_of_running running, Method.performDirect, Instruction.decide?,
          hstatement, hboth, hresult, Option.map_some, if_pos hzero]
      · rw [afterBranch, if_pos hzero]
        exact hmatched
    · refine ⟨⟨.instruction targetId, registers⟩, .head' ?_ (forwards.goes linked registers), ?_⟩
      · simp only [Goes, stepDirect_of_running running, Method.performDirect, Instruction.decide?,
          hstatement, hboth, hresult, Option.map_some, if_neg hzero]
      · rw [afterBranch, if_neg hzero]
        exact matched_landing linked laid htargetId
  · rintro rfl
    simp only [stepDirect_of_running running, Method.performDirect, Instruction.decide?, hstatement,
      hboth, hresult, Option.map_some]

theorem stage_of_ret (declares : site.method.Declares)
    (running : site.Running body ending index inst code rest) {value? : Option Element} {ty : Ty}
    (hstatement : inst.statement = .ret value? ty) (scalar : inst.statement.isScalar = true) :
    site.Stage body ending ⟨.instruction (index + 1), registers⟩ ⟨code ++ rest, [], registers⟩ := by
  have known := declares.known (List.mem_of_getElem? running.inst_eq) registers
  obtain ⟨n, k, hcode⟩ := running.code_eq
  rw [hstatement] at scalar known hcode
  obtain ⟨hret, -⟩ := Emit.lift_ok.mp hcode
  cases value? with
  | none =>
    obtain ⟨-, rfl⟩ := ret_none_ok.mp hret
    refine .inl ⟨⟨.void, registers⟩, _, halts_of_done ?_, halts_of_done rfl, rfl⟩
    simp only [stepDirect_of_running running, Method.performDirect, Instruction.decide?, hstatement]
  | some value =>
    obtain ⟨hty, hvalue⟩ := (Bool.and_eq_true _ _).mp scalar
    obtain ⟨word, hword⟩ := Element.word?_of_scalar hvalue fun name hname =>
      known name (by simpa [Statement.uses, Statement.operands] using hname)
    refine .inl ⟨_, _, halts_of_done ?_, ret_halts hty hvalue hret hword, rfl⟩
    simp only [stepDirect_of_running running, Method.performDirect, Instruction.decide?, hstatement,
      hword, Option.map_some]

theorem stage_of_running (linked : site.method.Linked) (declares : site.method.Declares)
    (laid : site.Laid body ending) (running : site.Running body ending index inst code rest)
    (scalar : inst.statement.isScalar = true) :
    site.Stage body ending ⟨.instruction (index + 1), registers⟩ ⟨code ++ rest, [], registers⟩ := by
  cases hstatement : inst.statement with
  | assign dest ty rhs =>
    cases dest with
    | operand name destTy => exact stage_of_assign linked declares laid running hstatement scalar
    | literal value ty =>
      rw [hstatement] at scalar
      cases scalar
    | slot name position ty =>
      rw [hstatement] at scalar
      cases scalar
  | goto label => exact stage_of_goto linked laid running hstatement
  | branch condition label => exact stage_of_branch linked declares laid running hstatement scalar
  | ret value? ty => exact stage_of_ret declares running hstatement scalar
  | _ =>
    rw [hstatement] at scalar
    cases scalar

end

theorem stages_of_laid (linked : site.method.Linked) (declares : site.method.Declares)
    (scalar : site.method.Scalar) (laid : site.Laid body ending) :
    Stages site.method.stepDirect (Machine.step body) (site.Matched body ending) Eq := by
  intro direct machine hmatched
  cases hmatched with
  | running running _ =>
    have hscalar := scalar _ (List.mem_of_getElem? running.inst_eq)
    exact stage_of_goes (Machine.goes_labels _) (stage_of_running linked declares laid running hscalar)
  | finished => exact .inl ⟨_, _, halts_of_done rfl, halts_of_done rfl, rfl⟩

-- ---------------------------------------------------------------------------
-- Whole methods
-- ---------------------------------------------------------------------------

theorem coded_of_scalar (linked : site.method.Linked) (scalar : site.method.Scalar) {n n' : Nat}
    {items : List Item}
    (h : site.Emitted n (Chunk.ofInstructions site.method.instructions) items n') :
    site.Coded n (Chunk.ofInstructions site.method.instructions) items n' := by
  have fit : site.method.CallsFit := by
    intro inst hinst
    have hscalar := scalar inst hinst
    cases hstatement : inst.statement with
    | call c =>
      rw [hstatement] at hscalar
      cases hscalar
    | _ => trivial
  refine (h.coded_or_short linked fit fun _ hchunk => hchunk).resolve_right ?_
  rintro ⟨first, inst, rest, _, _, _, _, hchunks, ⟨dest, ty, call, hstores⟩, -⟩
  have hinst : inst ∈ site.method.instructions := Chunk.mem_of_single (by rw [hchunks]; simp)
  have hscalar := scalar inst hinst
  rw [hstores] at hscalar
  cases dest <;> simp [Statement.isScalar, Statement.isScalarValue] at hscalar

theorem laid_of_body (linked : site.method.Linked) (scalar : site.method.Scalar)
    (apart : site.method.LabelsApart) {n n' : Nat} (h : site.body n = (.ok body, n')) :
    ∃ ending, site.Laid body ending := by
  obtain ⟨items, hitems, hclose⟩ := body_ok.mp h
  have hcoded := coded_of_scalar linked scalar hitems
  have hnodup : (labelsOf items).Nodup :=
    hcoded.nodup (Chunk.flatMap_labels _ ▸ linked.labels_nodup) fun _ => not_ownLabel_of_chunks apart
  rw [Chunk.ofInstructions_of_scalar scalar] at hitems
  rcases close_ok hclose with ⟨-, rfl⟩ | ⟨-, rfl⟩
  · exact ⟨[], hnodup, ⟨n, n', body, hitems, (List.append_nil body).symm⟩,
      .inr ⟨rfl, endsClosed_of_close hclose⟩⟩
  · refine ⟨ops [.ret], ?_, ⟨n, n', items, hitems, rfl⟩, .inl rfl⟩
    rw [labelsOf_append, labelsOf_ops, List.append_nil]
    exact hnodup

theorem matched_start (laid : site.Laid body ending) (registers : Nat → Int32) :
    site.Matched body ending ⟨site.method.entry, registers⟩ (.start body registers) := by
  obtain ⟨n, n', items, hitems, rfl⟩ := laid.emitted
  unfold Method.entry Machine.start
  split
  · next hempty =>
    rw [List.isEmpty_iff.mp hempty] at hitems
    obtain ⟨rfl, -⟩ := emitted_nil.mp hitems
    rcases laid.closed with rfl | ⟨rfl, op, hlast, -⟩
    · exact .finished
    · cases hlast
  · next hne =>
    cases hinsts : site.method.instructions with
    | nil =>
      rw [hinsts] at hne
      exact absurd rfl hne
    | cons first rest =>
      have hfirst : site.method.instructions[0]? = some first := by rw [hinsts]; rfl
      exact matched_drop hfirst hitems (List.suffix_refl _)

/-- The code of a scalar method does what the method does directly. -/
theorem body_halts_iff (linked : site.method.Linked) (declares : site.method.Declares)
    (scalar : site.method.Scalar) (apart : site.method.LabelsApart) {n n' : Nat}
    (h : site.body n = (.ok body, n')) (registers : Nat → Int32) (final : Final) :
    Halts (Machine.step body) (.start body registers) final ↔
      Halts site.method.stepDirect ⟨site.method.entry, registers⟩ final := by
  obtain ⟨ending, laid⟩ := laid_of_body linked scalar apart h
  exact ((stages_of_laid linked declares scalar laid).halts_iff (matched_start laid registers)).symm

end Site

theorem listing_halts_iff {draft : Draft} {method : Method} (built : draft.build = .ok method)
    (scalar : method.Scalar) (apart : method.LabelsApart) (assignment : String → Nat)
    {unit : ClassUnit} {n n' : Nat} {listing : MethodListing}
    (h : Site.listing { unit, method := method.withRegisters assignment } n = (.ok listing, n'))
    (registers : Nat → Int32) (final : Final) :
    Halts (Machine.step listing.body) (.start listing.body registers) final ↔
      Halts (method.withRegisters assignment).stepDirect ⟨method.entry, registers⟩ final :=
  Site.body_halts_iff ((Draft.linked_of_build built).withVars _)
    ((Draft.declares_of_build built).mapVars _) scalar apart (Site.listing_ok h).1 registers final

/-- Divides its parameter down and tells whether that took more than two steps. -/
def dividing : Draft :=
  let rest : Element := .operand "rest" .int32
  let steps : Element := .operand "steps" .int32
  let many : Element := .operand "many" .boolean
  let number (value : Int32) : Element := .literal (.int value) .int32
  let start : Draft := { Draft.new "many" .boolean with isStatic := true }
  let count := (start.addParam "rest" .int32).push (.assign steps .int32 (.element (number 0)))
  let test := (count.label "loop").push
    (.branch (.binary { op := .ge, left := number 0, right := rest }) "out")
  let divide := test.push (.assign rest .int32 (.binary { op := .div, left := rest, right := number 10 }))
  let add := divide.push (.assign steps .int32 (.binary { op := .add, left := number 1, right := steps }))
  let back := ((add.push (.goto "next")).label "next").push (.goto "loop")
  ((back.label "out").push
    (.assign many .boolean (.binary { op := .gt, left := steps, right := number 2 }))).push
    (.ret (some many) .boolean)

def dividingMethod : Method :=
  match dividing.build with
  | .ok method => method
  | .error _ => dividing.unlinked

-- `many` has the register of the parameter.
def dividingRegister (name : String) : Nat := if name = "steps" then 1 else 0

def dividingUnit : ClassUnit where
  name := "Main"
  super? := none
  access := .pub
  isFinal := false
  imports := []
  fields := []
  methods := [dividingMethod.withRegisters dividingRegister]

theorem listing_halts_iff_dividing :
    dividing.build = .ok dividingMethod ∧ ∃ listing n',
      Site.listing { unit := dividingUnit, method := dividingMethod.withRegisters dividingRegister } 0
        = (.ok listing, n') ∧
      ∃ final, final.outcome = .value 1 ∧
        Halts (Machine.step listing.body) (.start listing.body fun _ => 4321) final := by
  have built : dividing.build = .ok dividingMethod := rfl
  have scalar : ∀ inst ∈ dividingMethod.instructions, inst.statement.isScalar = true := by
    decide +kernel
  have apart : dividingMethod.LabelsApart := Method.labelsApart_of_take (by decide +kernel)
  have lowers : (Site.listing
      { unit := dividingUnit, method := dividingMethod.withRegisters dividingRegister }
      0).1.toOption.isSome = true := by decide +kernel
  have direct : (runFor (dividingMethod.withRegisters dividingRegister).stepDirect 40
      ⟨dividingMethod.entry, fun _ => 4321⟩).map Final.outcome = some (.value 1) := by decide +kernel
  obtain ⟨final, hrun, houtcome⟩ := Option.map_eq_some_iff.mp direct
  obtain ⟨listing, hok⟩ := Option.isSome_iff_exists.mp lowers
  obtain ⟨n', hlisting⟩ := Emit.exists_ok hok
  refine ⟨built, listing, n', hlisting, final, houtcome, ?_⟩
  exact (listing_halts_iff built scalar apart dividingRegister hlisting _ final).mpr ⟨40, hrun⟩

end ThreeAddress
