import ThreeAddress.Proofs.ScalarSuccess

/-!
# Allocation keeps the meaning of emitted code

Two direct runs of one body that keep the variables in different registers stay at the same instruction
and agree on the live variables, if both assignments of registers separate what is live
(`Method.stages_of_separates`). Lowering keeps the meaning of either one. So the code of a method and
the code of the same method after an allocation come to the same end: `allocate_keeps_outcome`.
-/

namespace ThreeAddress

open Liveness (liveInOf)

/-- Both runs are at the same instruction, and agree on the variables that are live there. -/
structure Method.Level (method other : Method) (state state' : DirectState) : Prop where
  position_eq : state.position = state'.position
  exists_inst : ∀ {id}, state.position = .instruction id → ∃ inst, method.instruction? id = some inst
  agree : ∀ {id}, state.position = .instruction id → Agree (liveInOf method.liveness id)
    method.register? other.register? state.registers state'.registers

namespace Method

variable {method other : Method} {registers registers' : Nat → Int32}

-- The two methods have the same instructions, so only the registers make a difference.
theorem stages_of_separates (linked : method.Linked) (declares : method.Declares)
    (declares' : other.Declares) (scalar : method.Scalar)
    (hinsts : other.instructions = method.instructions)
    (separates : Separates method.liveness method.register?)
    (separates' : Separates method.liveness other.register?) :
    Stages method.stepDirect other.stepDirect (method.Level other)
      fun final final' => final.outcome = final'.outcome := by
  rintro ⟨position, registers⟩ ⟨position', registers'⟩ level
  obtain rfl : position = position' := level.position_eq
  cases position with
  | exit => exact .inl ⟨_, _, halts_of_done rfl, halts_of_done rfl, rfl⟩
  | instruction id =>
    obtain ⟨inst, hinst⟩ := level.exists_inst rfl
    have agree : Agree (liveInOf method.liveness id) method.register? other.register? registers
        registers' := level.agree rfl
    have hmem := mem_of_instruction? hinst
    have hscalar := scalar inst hmem
    have hinst' : other.instruction? id = some inst := by
      rw [← hinst]
      cases id with
      | zero => rfl
      | succ index => exact congrArg (·[index]?) hinsts
    obtain ⟨decision, hdecision⟩ :
        ∃ decision, inst.decide? (method.values registers) = some decision := by
      cases id with
      | zero => cases hinst
      | succ index => exact linked.decide?_of_scalar declares hinst hscalar registers
    have hdecision' : inst.decide? (other.values registers') = some decision := by
      rw [← hdecision]
      exact (Instruction.decide?_congr hscalar fun name huse => agree_uses hinst agree huse).symm
    cases decision with
    | stop outcome =>
      refine .inl ⟨⟨outcome, registers⟩, ⟨outcome, registers'⟩, halts_of_done ?_, halts_of_done ?_, rfl⟩
      · simp only [stepDirect, hinst, performDirect, hdecision]
      · simp only [stepDirect, hinst', performDirect, hdecision']
    | move next =>
      obtain ⟨hdef, hnext⟩ := Instruction.decide?_move hdecision
      refine .inr ⟨⟨next, registers⟩, ⟨next, registers'⟩, .single ?_, .single ?_, rfl, ?_, ?_⟩
      · simp only [Goes, stepDirect, hinst, performDirect, hdecision]
      · simp only [Goes, stepDirect, hinst', performDirect, hdecision']
      · rintro id rfl
        exact linked.exists_of_successor hmem hnext
      · rintro id rfl
        exact agree_keep hinst hdef agree hnext
    | write name word next =>
      obtain ⟨hdef, hnext⟩ := Instruction.decide?_write hscalar hdecision
      have htouch : name ∈ inst.statement.defs := by simp [Statement.defs, hdef]
      obtain ⟨register, hregister⟩ := exists_register? (declares inst hmem name (.inl htouch))
      obtain ⟨register', hregister'⟩ :=
        exists_register? (declares' inst (hinsts ▸ hmem) name (.inl htouch))
      refine .inr ⟨⟨next, Function.update registers register word⟩,
        ⟨next, Function.update registers' register' word⟩, .single ?_, .single ?_, rfl, ?_, ?_⟩
      · simp only [Goes, stepDirect, hinst, performDirect, hdecision, hregister]
      · simp only [Goes, stepDirect, hinst', performDirect, hdecision', hregister']
      · rintro id rfl
        exact linked.exists_of_successor hmem hnext
      · rintro id rfl
        exact agree_write hinst separates separates' hdef hregister hregister' agree hnext word

theorem level_of_agree (agree : Agree (liveInOf method.liveness 1) method.register? other.register?
    registers registers') :
    method.Level other ⟨method.entry, registers⟩ ⟨method.entry, registers'⟩ := by
  refine ⟨rfl, fun hid => (entry_exists hid).2, fun hid => ?_⟩
  obtain ⟨rfl, -⟩ := entry_exists hid
  exact agree

/-- The receiver and the parameters stay in their registers. So if nothing else is live at the start,
files that agree there agree on all that matters. -/
theorem agree_of_pinned {coloring : Coloring}
    (valid : method.interference.Valid method.pins coloring)
    (hlive : ∀ name ∈ liveInOf method.liveness 1, ∀ var, method.vars.get? name = some var →
      var.scope ≠ .localVar)
    (hfiles : ∀ name var, method.vars.get? name = some var → var.scope ≠ .localVar →
      registers var.register = registers' var.register) :
    Agree (liveInOf method.liveness 1) method.register? (method.recolor coloring).register?
      registers registers' := by
  intro name hname
  rw [register?, register?, get?_recolor]
  cases hvar : method.vars.get? name with
  | none => rfl
  | some var =>
    have hscope := hlive name hname var hvar
    simp only [Option.map_some, register_recolor_of_pinned valid hvar hscope,
      hfiles name var hvar hscope]

end Method

/-- Lowering succeeds before an allocation if and only if it does after it, and then the two bodies end
alike on files of registers that agree on the receiver and the parameters, or both run for ever. -/
theorem allocate_keeps_outcome {draft : Draft} {method allocated : Method} {limit : Nat}
    {coloring : Coloring} (built : draft.build = .ok method) (scalar : method.Scalar)
    (apart : method.LabelsApart)
    (hlive : ∀ name ∈ liveInOf method.liveness 1, ∀ var, method.vars.get? name = some var →
      var.scope ≠ .localVar)
    (h : method.allocate limit = .ok (coloring, allocated)) (unit unit' : ClassUnit) (n k : Nat)
    (registers registers' : Nat → Int32)
    (hfiles : ∀ name var, method.vars.get? name = some var → var.scope ≠ .localVar →
      registers var.register = registers' var.register) :
    ((∃ listing n', Site.listing { unit, method } n = (.ok listing, n')) ↔
        ∃ listing k', Site.listing { unit := unit', method := allocated } k = (.ok listing, k')) ∧
      ∀ listing n' listing' k', Site.listing { unit, method } n = (.ok listing, n') →
        Site.listing { unit := unit', method := allocated } k = (.ok listing', k') →
        ∀ outcome,
          (∃ final, final.outcome = outcome ∧
            Halts (Machine.step listing.body) (.start listing.body registers) final) ↔
          ∃ final, final.outcome = outcome ∧
            Halts (Machine.step listing'.body) (.start listing'.body registers') final := by
  have prepared : method.Prepared := .built built
  have separates := Method.separates_of_build built
  have separates' := Method.separates_of_allocate prepared h
  obtain ⟨valid, rfl⟩ := Method.allocate_ok prepared.pinsDistinct h
  have linked := prepared.linked
  have declares := prepared.declares
  have linked' : (method.recolor coloring).Linked := linked.withVars _
  have declares' : (method.recolor coloring).Declares := declares.mapVars _
  have stages := Method.stages_of_separates linked declares declares' scalar rfl separates separates'
  have level := Method.level_of_agree (Method.agree_of_pinned valid hlive hfiles)
  refine ⟨?_, ?_⟩
  · rw [Site.listing_isOk_iff linked declares scalar apart,
      Site.listing_isOk_iff linked' declares' scalar apart]
    exact ⟨fun lowerable => ⟨lowerable.1, lowerable.2⟩, fun lowerable => ⟨lowerable.1, lowerable.2⟩⟩
  · intro listing n' listing' k' hlisting hlisting' outcome
    simp only [Site.body_halts_iff linked declares scalar apart (Site.listing_ok hlisting).1,
      Site.body_halts_iff linked' declares' scalar apart (Site.listing_ok hlisting').1]
    constructor
    · rintro ⟨final, rfl, halts⟩
      obtain ⟨final', halts', same⟩ := stages.halts level halts
      exact ⟨final', same.symm, halts'⟩
    · rintro ⟨final', rfl, halts'⟩
      obtain ⟨final, halts, same⟩ := stages.symm.halts level halts'
      exact ⟨final, same, halts⟩

-- With two registers for three variables, `many` goes where the parameter was.
def dividingColoring : Coloring := ⟨[("rest", 0), ("many", 0), ("steps", 1)], by decide⟩

def fileWith (rest others : Int32) (register : Nat) : Int32 := if register = 0 then rest else others

theorem allocate_keeps_outcome_dividing :
    dividing.build = .ok dividingMethod ∧
      dividingMethod.allocate 2
        = .ok (dividingColoring, dividingMethod.recolor dividingColoring) ∧
      ∃ listing k',
        Site.listing { unit := dividingUnit, method := dividingMethod.recolor dividingColoring } 0
          = (.ok listing, k') ∧
        ∃ final, final.outcome = .value 1 ∧
          Halts (Machine.step listing.body) (.start listing.body (fileWith 4321 7)) final := by
  have built : dividing.build = .ok dividingMethod := rfl
  have allocated : dividingMethod.allocate 2
      = .ok (dividingColoring, dividingMethod.recolor dividingColoring) := by decide +kernel
  have scalar : ∀ inst ∈ dividingMethod.instructions, inst.statement.isScalar = true := by
    decide +kernel
  have apart : dividingMethod.LabelsApart := Method.labelsApart_of_take (by decide +kernel)
  have pinned : ∀ entry ∈ dividingMethod.vars.entries, entry.2.scope ≠ .localVar →
      entry.1 = "rest" ∧ entry.2.register = 0 := by decide +kernel
  have live : ∀ name ∈ (liveInOf dividingMethod.liveness 1).names, ∀ entry ∈ dividingMethod.vars.entries,
      entry.1 = name → entry.2.scope ≠ .localVar := by decide +kernel
  have run : ((Site.listing { unit := dividingUnit, method := dividingMethod } 0).1.toOption.bind
      fun listing => (runFor (Machine.step listing.body) 100
        (.start listing.body (fileWith 4321 8))).map Final.outcome) = some (.value 1) := by
    decide +kernel
  obtain ⟨listing, hok, hrun⟩ := Option.bind_eq_some_iff.mp run
  obtain ⟨final, hfinal, houtcome⟩ := Option.map_eq_some_iff.mp hrun
  have hlive : ∀ name ∈ liveInOf dividingMethod.liveness 1, ∀ var,
      dividingMethod.vars.get? name = some var → var.scope ≠ .localVar :=
    fun name hname var hvar => live name hname (name, var) (Table.get?_eq_some_iff.mp hvar) rfl
  have hfiles : ∀ name var, dividingMethod.vars.get? name = some var → var.scope ≠ .localVar →
      fileWith 4321 8 var.register = fileWith 4321 7 var.register := by
    intro name var hvar hscope
    rw [(pinned (name, var) (Table.get?_eq_some_iff.mp hvar) hscope).2]
    rfl
  obtain ⟨hlowers, hends⟩ := allocate_keeps_outcome built scalar apart hlive allocated dividingUnit
    dividingUnit 0 0 (fileWith 4321 8) (fileWith 4321 7) hfiles
  obtain ⟨n', hlisting⟩ := Emit.exists_ok hok
  obtain ⟨listing', k', hlisting'⟩ := hlowers.mp ⟨listing, n', hlisting⟩
  refine ⟨built, allocated, listing', k', hlisting', ?_⟩
  exact (hends listing n' listing' k' hlisting hlisting' (.value 1)).mp
    ⟨final, houtcome, 100, hfinal⟩

end ThreeAddress
