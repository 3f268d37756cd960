import ThreeAddress.Proofs.Balance
import ThreeAddress.Proofs.Control
import ThreeAddress.Proofs.Machine

/-!
# Where methods return

A return is lowered by the type that it is written with, and the type that the method declares is not
looked at. So the paths of control through a body stop as the method declares exactly if the returns that
control flow leads to are all written with a type of that category. To see this, a path through the body
is followed along the instructions that its items come from (`Site.Tracked`), and control flow along the
body (`Site.Covers`). Control flow takes a chain of jumps one by one where the body goes to the end of it
at once.
-/

namespace ThreeAddress

open ControlFlow (behind)
open ThreeAddress.Frame (EndsClosed)

-- ---------------------------------------------------------------------------
-- Control flow
-- ---------------------------------------------------------------------------

/-- Control flow leads from the first instruction to this one. -/
inductive Method.Visits (method : Method) : Nat → Prop
  | start : Visits method 1
  | step {id next : Nat} {inst : Instruction} : Visits method id →
    method.instruction? id = some inst → .instruction next ∈ inst.successors → Visits method next

namespace Method

variable {method : Method}

theorem Linked.behind_mem (linked : method.Linked) {index : Nat} {inst : Instruction}
    (hinst : method.instructions[index]? = some inst) (through : inst.statement.leaves = false) :
    behind method.instructions.length index ∈ inst.successors := by
  have hsuccs := linked.successors_eq index inst hinst
  cases hstatement : inst.statement with
  | goto label =>
    rw [hstatement] at through
    cases through
  | ret value? ty =>
    rw [hstatement] at through
    cases through
  | branch condition label =>
    rw [hstatement] at hsuccs
    obtain ⟨id, -, heq⟩ := ControlFlow.successors_branch.mp hsuccs
    rw [heq]
    exact List.mem_cons_of_mem _ List.mem_cons_self
  | _ =>
    rw [hstatement] at hsuccs
    rw [← Except.ok.inj hsuccs]
    exact List.mem_cons_self

/-- Control goes on behind an instruction, or where its jump leads. -/
theorem Linked.successor_cases (linked : method.Linked) {index next : Nat} {inst : Instruction}
    (hinst : method.instructions[index]? = some inst) (h : .instruction next ∈ inst.successors) :
    (inst.statement.leaves = false ∧ index + 1 < method.instructions.length ∧ next = index + 2) ∨
      ∃ label, inst.statement.jump? = some label ∧ method.label? label = some next := by
  have hbehind : .instruction next = behind method.instructions.length index →
      index + 1 < method.instructions.length ∧ next = index + 2 := by
    unfold behind
    split
    · next hlt => exact fun heq => ⟨hlt, Successor.instruction.inj heq⟩
    · exact fun heq => nomatch heq
  have hsuccs := linked.successors_eq index inst hinst
  cases hstatement : inst.statement with
  | goto label =>
    rw [hstatement] at hsuccs
    obtain ⟨id, hid, heq⟩ := ControlFlow.successors_goto.mp hsuccs
    rw [heq] at h
    cases List.mem_singleton.mp h
    exact .inr ⟨label, rfl, hid⟩
  | branch condition label =>
    rw [hstatement] at hsuccs
    obtain ⟨id, hid, heq⟩ := ControlFlow.successors_branch.mp hsuccs
    rw [heq] at h
    rcases List.mem_cons.mp h with heq | h
    · cases heq
      exact .inr ⟨label, rfl, hid⟩
    · exact .inl ⟨rfl, hbehind (List.mem_singleton.mp h)⟩
  | ret value? ty =>
    rw [hstatement] at hsuccs
    rw [← Except.ok.inj hsuccs] at h
    cases List.mem_singleton.mp h
  | _ =>
    rw [hstatement] at hsuccs
    rw [← Except.ok.inj hsuccs] at h
    exact .inl ⟨rfl, hbehind (List.mem_singleton.mp h)⟩

theorem Visits.forwards (linked : method.Linked) {id last : Nat} (visits : method.Visits id)
    (h : method.Forwards id last) : method.Visits last := by
  induction h with
  | refl => exact visits
  | step hinst hgoto hnext _ ih =>
    obtain ⟨next, hlabel, hsuccs⟩ := linked.label?_of_goto hinst hgoto
    cases hlabel.symm.trans hnext
    exact ih (visits.step hinst (hsuccs ▸ List.mem_cons_self))

theorem Visits.behind (linked : method.Linked) {index : Nat} {inst : Instruction}
    (visits : method.Visits (index + 1)) (hinst : method.instructions[index]? = some inst)
    (through : inst.statement.leaves = false) (hlt : index + 1 < method.instructions.length) :
    method.Visits (index + 2) := by
  have hmem := linked.behind_mem hinst through
  rw [ControlFlow.behind, if_pos hlt] at hmem
  exact visits.step hinst hmem

theorem Visits.jump (linked : method.Linked) {index next : Nat} {inst : Instruction} {label : String}
    (visits : method.Visits (index + 1)) (hinst : method.instructions[index]? = some inst)
    (hjump : inst.statement.jump? = some label) (hnext : method.label? label = some next) :
    method.Visits next := by
  refine visits.step hinst ?_
  cases hstatement : inst.statement with
  | goto written =>
    rw [hstatement] at hjump
    cases hjump
    obtain ⟨id, hid, hsuccs⟩ := @Linked.label?_of_goto method linked (index + 1) inst _ hinst hstatement
    cases hid.symm.trans hnext
    exact hsuccs ▸ List.mem_cons_self
  | branch condition written =>
    rw [hstatement] at hjump
    cases hjump
    obtain ⟨id, hid, hsuccs⟩ := linked.label?_of_branch hinst hstatement
    cases hid.symm.trans hnext
    exact hsuccs ▸ List.mem_cons_self
  | _ =>
    rw [hstatement] at hjump
    cases hjump

end Method

-- ---------------------------------------------------------------------------
-- Chunks in a body
-- ---------------------------------------------------------------------------

namespace Chunk

/-- How many instructions the chunk takes. -/
def width : Chunk → Nat
  | .single _ => 1
  | .fused .. => 2

theorem width_pos (chunk : Chunk) : 0 < chunk.width := by
  cases chunk with
  | single inst => exact Nat.one_pos
  | fused inst construction => exact Nat.two_pos

theorem ofInstructions_ne_nil {insts : List Instruction} (h : insts ≠ []) : ofInstructions insts ≠ [] := by
  fun_cases ofInstructions insts with
  | case1 => exact absurd rfl h
  | case2 => exact List.cons_ne_nil _ _
  | case3 => exact List.cons_ne_nil _ _
  | case4 => exact List.cons_ne_nil _ _

/-- The instructions of the first chunk, and those that are left. -/
theorem of_ofInstructions_cons {insts : List Instruction} {chunk : Chunk} {later : List Chunk}
    (h : ofInstructions insts = chunk :: later) :
    insts[0]? = some chunk.first ∧ later = ofInstructions (insts.drop chunk.width) ∧
      (chunk.width = 1 ∨ ∃ next construction, chunk.width = 2 ∧ insts[1]? = some next ∧
        Construction.of? chunk.first next = some construction) := by
  fun_cases ofInstructions insts with
  | case1 => cases h
  | case2 inst =>
    cases h
    exact ⟨rfl, rfl, .inl rfl⟩
  | case3 inst next rest construction hfused =>
    simp only [ofInstructions, hfused] at h
    cases h
    exact ⟨rfl, rfl, .inr ⟨next, construction, rfl, rfl, hfused⟩⟩
  | case4 inst next rest hapart =>
    simp only [ofInstructions, hapart] at h
    cases h
    exact ⟨rfl, rfl, .inl rfl⟩

end Chunk

namespace Site

/-- The body is that of the method, with `ending` behind the code of the last chunk. -/
structure Composed (site : Site) (body ending : List Item) : Prop where
  emitted : ∃ n n' items,
    site.Emitted n (Chunk.ofInstructions site.method.instructions) items n' ∧ body = items ++ ending
  ending_eq : ending = [] ∨ site.method.ret = .void ∧ ending = ops [.ret]
  closed : EndsClosed body

/-- The code of the chunk from the instruction at `index` on stands in the body, with the code of the
later chunks behind it. -/
structure Standing (site : Site) (body ending : List Item) (index : Nat) (chunk : Chunk)
    (code rest : List Item) : Prop where
  chunk_eq : ∃ later, Chunk.ofInstructions (site.method.instructions.drop index) = chunk :: later
  course : site.Course chunk.first.statement code
  rest_eq : ∃ k n' others, rest = others ++ ending ∧ site.Emitted k
    (Chunk.ofInstructions (site.method.instructions.drop (index + chunk.width))) others n'
  suffix : chunk.labels.map .label ++ code ++ rest <:+ body

variable {site : Site} {body ending : List Item} {n n' : Nat}

theorem composed_of_listing {lowered : MethodListing} (h : site.listing n = (.ok lowered, n')) :
    ∃ ending, site.Composed lowered.body ending := by
  obtain ⟨items, hitems, hclose⟩ := body_ok.mp (listing_ok h).1
  have closed := endsClosed_of_close hclose
  rcases close_ok hclose with ⟨-, heq⟩ | ⟨hvoid, heq⟩
  · exact ⟨[], ⟨n, n', items, hitems, by rw [List.append_nil, heq]⟩, .inl rfl, closed⟩
  · exact ⟨ops [.ret], ⟨n, n', items, hitems, heq⟩, .inr ⟨hvoid, rfl⟩, closed⟩

theorem standing_drop {index k : Nat} {items : List Item} (hlt : index < site.method.instructions.length)
    (h : site.Emitted k (Chunk.ofInstructions (site.method.instructions.drop index)) items n')
    (hsuffix : items ++ ending <:+ body) :
    ∃ chunk code rest, site.Standing body ending index chunk code rest ∧
      items ++ ending = chunk.labels.map .label ++ code ++ rest := by
  have hne : Chunk.ofInstructions (site.method.instructions.drop index) ≠ [] :=
    Chunk.ofInstructions_ne_nil (by simpa using hlt)
  obtain ⟨chunk, later, hchunks⟩ := List.exists_cons_of_ne_nil hne
  obtain ⟨-, hlater, -⟩ := Chunk.of_ofInstructions_cons hchunks
  rw [List.drop_drop] at hlater
  have hmem : chunk ∈ Chunk.ofInstructions (site.method.instructions.drop index) := by
    rw [hchunks]
    exact List.mem_cons_self
  rw [hchunks] at h
  obtain ⟨code, k', others, hcode, hothers, rfl⟩ := emitted_cons.mp h
  rw [List.append_assoc] at hsuffix ⊢
  exact ⟨chunk, code, others ++ ending, ⟨⟨later, hchunks⟩, chunk_course hmem hcode,
    ⟨k', n', others, rfl, hlater ▸ hothers⟩, hsuffix⟩, rfl⟩

namespace Standing

variable {index : Nat} {chunk : Chunk} {code rest : List Item}

theorem first_eq (standing : site.Standing body ending index chunk code rest) :
    site.method.instructions[index]? = some chunk.first := by
  obtain ⟨later, hchunks⟩ := standing.chunk_eq
  obtain ⟨hfirst, -⟩ := Chunk.of_ofInstructions_cons hchunks
  simpa using hfirst

/-- The second instruction of a chunk is a call without labels, and the first then lets control
through. -/
theorem width_cases (standing : site.Standing body ending index chunk code rest) :
    chunk.width = 1 ∨ chunk.width = 2 ∧ chunk.first.statement.leaves = false ∧
      ∃ next call, site.method.instructions[index + 1]? = some next ∧ next.statement = .call call ∧
        next.labels = [] := by
  obtain ⟨later, hchunks⟩ := standing.chunk_eq
  obtain ⟨-, -, hwidth⟩ := Chunk.of_ofInstructions_cons hchunks
  refine hwidth.imp_right fun ⟨next, construction, htwo, hnext, hof⟩ => ?_
  obtain ⟨hcall, -, -, hlabels⟩ := Construction.of?_eq_some hof
  obtain ⟨-, ⟨ty, hassign⟩, -⟩ := Construction.source_of_of? hof
  exact ⟨htwo, by rw [hassign]; rfl, next, _, by simpa using hnext, hcall, hlabels⟩

/-- An instruction of the chunk is its first one or a call. -/
theorem inst_cases (standing : site.Standing body ending index chunk code rest) {id : Nat}
    {inst : Instruction} (hafter : index < id) (hwithin : id ≤ index + chunk.width)
    (hinst : site.method.instruction? id = some inst) :
    (id = index + 1 ∧ inst = chunk.first) ∨
      (id = index + chunk.width ∧ chunk.first.statement.leaves = false ∧
        ∃ call, inst.statement = .call call ∧ inst.labels = []) := by
  rcases standing.width_cases with hone | ⟨htwo, hfirst, next, call, hnext, hcall, hlabels⟩
  · obtain rfl : id = index + 1 := by omega
    exact .inl ⟨rfl, Option.some.inj (Eq.trans hinst.symm standing.first_eq)⟩
  · obtain rfl | rfl : id = index + 1 ∨ id = index + 2 := by omega
    · exact .inl ⟨rfl, Option.some.inj (Eq.trans hinst.symm standing.first_eq)⟩
    · obtain rfl : inst = next := Option.some.inj (Eq.trans hinst.symm hnext)
      exact .inr ⟨by rw [htwo], hfirst, call, hcall, hlabels⟩

theorem behind (standing : site.Standing body ending index chunk code rest)
    (hlt : index + chunk.width < site.method.instructions.length) :
    ∃ chunk' code' rest', site.Standing body ending (index + chunk.width) chunk' code' rest' ∧
      rest = chunk'.labels.map .label ++ code' ++ rest' := by
  obtain ⟨k, n', others, rfl, hothers⟩ := standing.rest_eq
  exact standing_drop hlt hothers ((List.suffix_append _ _).trans standing.suffix)

theorem visits_behind (linked : site.method.Linked)
    (standing : site.Standing body ending index chunk code rest)
    (visits : site.method.Visits (index + 1)) (through : chunk.first.statement.leaves = false)
    (hlt : index + chunk.width < site.method.instructions.length) :
    site.method.Visits (index + chunk.width + 1) := by
  rcases standing.width_cases with hone | ⟨htwo, -, next, call, hnext, hcall, -⟩
  · rw [hone] at hlt ⊢
    exact visits.behind linked standing.first_eq through hlt
  · rw [htwo] at hlt ⊢
    have second := visits.behind linked standing.first_eq through (by omega)
    exact second.behind linked hnext (by rw [hcall]; rfl) hlt

end Standing

/-- Every instruction is in some chunk that stands in the body. -/
theorem exists_standing (composed : site.Composed body ending) {index : Nat}
    (hlt : index < site.method.instructions.length) :
    ∃ start chunk code rest, site.Standing body ending start chunk code rest ∧
      start ≤ index ∧ index < start + chunk.width := by
  induction index with
  | zero =>
    obtain ⟨n, n', items, hitems, rfl⟩ := composed.emitted
    obtain ⟨chunk, code, rest, standing, -⟩ :=
      standing_drop hlt (by simpa using hitems) (List.suffix_refl _)
    exact ⟨0, chunk, code, rest, standing, Nat.le_refl 0, by have := chunk.width_pos; omega⟩
  | succ index ih =>
    obtain ⟨start, chunk, code, rest, standing, hle, hwithin⟩ := ih (by omega)
    by_cases hinside : index + 1 < start + chunk.width
    · exact ⟨start, chunk, code, rest, standing, by omega, hinside⟩
    · -- The instruction is the first of the next chunk.
      obtain heq : index + 1 = start + chunk.width := by omega
      obtain ⟨chunk', code', rest', standing', -⟩ := standing.behind (heq ▸ hlt)
      exact ⟨_, chunk', code', rest', standing', by omega, by have := chunk'.width_pos; omega⟩

/-- A label of the method stands before the code of its instruction. -/
theorem standing_of_label? (linked : site.method.Linked) (composed : site.Composed body ending)
    {label : String} {id : Nat} (h : site.method.label? label = some id) :
    ∃ index chunk code rest after, id = index + 1 ∧ site.Standing body ending index chunk code rest ∧
      label :: after <:+ chunk.labels := by
  obtain ⟨inst, hinst, hlabel⟩ := (linked.label?_iff label id).mp h
  cases id with
  | zero => cases hinst
  | succ index =>
    obtain ⟨hlt, -⟩ := List.getElem?_eq_some_iff.mp hinst
    obtain ⟨start, chunk, code, rest, standing, hle, hwithin⟩ := exists_standing composed hlt
    rcases standing.inst_cases (Nat.lt_succ_of_le hle) hwithin hinst with
      ⟨heq, rfl⟩ | ⟨-, -, call, -, hnone⟩
    · obtain ⟨before, after, hlabels⟩ := List.append_of_mem hlabel
      exact ⟨start, chunk, code, rest, after, heq, standing, before, by rw [chunk.labels_eq, hlabels]⟩
    · rw [hnone] at hlabel
      cases hlabel

theorem eq_of_landings {label : String} {first second : List Item} (unique : (labelsOf body).Nodup)
    (hfirst : .label label :: first <:+ body) (hsecond : .label label :: second <:+ body) :
    first = second :=
  (List.cons.inj ((landing_of_nodup unique hfirst).symm.trans (landing_of_nodup unique hsecond))).2

-- ---------------------------------------------------------------------------
-- From the body to control flow
-- ---------------------------------------------------------------------------

/-- The place is in the code of a chunk that control flow leads to, or before the closing return. -/
inductive Tracked (site : Site) (body ending : List Item) : List Item → Prop
  | inside {index : Nat} {chunk : Chunk} {code rest part : List Item} :
    site.Standing body ending index chunk code rest → site.method.Visits (index + 1) →
    part <:+ chunk.labels.map .label ++ code → part ≠ [] → Tracked site body ending (part ++ rest)
  | closing : site.method.ret = .void → Tracked site body ending (ops [.ret])

-- By induction on the number of instructions that are left. A chunk may have neither labels nor code;
-- the place is then one in a later chunk, to which control flow leads as well.
theorem tracked_drop (linked : site.method.Linked) (composed : site.Composed body ending)
    {left index k : Nat} {items : List Item} (hleft : site.method.instructions.length ≤ index + left)
    (h : site.Emitted k (Chunk.ofInstructions (site.method.instructions.drop index)) items n')
    (hsuffix : items ++ ending <:+ body)
    (visits : index < site.method.instructions.length → site.method.Visits (index + 1))
    (hne : items ++ ending ≠ []) : site.Tracked body ending (items ++ ending) := by
  induction left generalizing index k n' items with
  | zero =>
    rw [Nat.add_zero] at hleft
    rw [List.drop_eq_nil_of_le hleft] at h
    obtain ⟨rfl, -⟩ := emitted_nil.mp h
    rcases composed.ending_eq with rfl | ⟨hvoid, rfl⟩
    · exact absurd rfl hne
    · exact .closing hvoid
  | succ left ih =>
    by_cases hlt : index < site.method.instructions.length
    · obtain ⟨chunk, code, rest, standing, heq⟩ := standing_drop hlt h hsuffix
      rw [heq] at hne ⊢
      by_cases hnone : chunk.labels.map .label ++ code = []
      · obtain ⟨k', n', others, rfl, hothers⟩ := standing.rest_eq
        rw [hnone, List.nil_append] at hne ⊢
        have through : chunk.first.statement.leaves = false := by
          rw [← Bool.not_eq_true]
          intro leaves
          obtain ⟨before, op, rfl, -⟩ := standing.course.last leaves
          simp at hnone
        have hwidth := chunk.width_pos
        exact ih (by omega) hothers ((List.suffix_append _ _).trans standing.suffix)
          (standing.visits_behind linked (visits hlt) through) hne
      · exact .inside standing (visits hlt) (List.suffix_refl _) hnone
    · exact ih (by omega) h hsuffix visits hne

theorem Standing.tracked_rest {index : Nat} {chunk : Chunk} {code rest : List Item}
    (linked : site.method.Linked) (composed : site.Composed body ending)
    (standing : site.Standing body ending index chunk code rest)
    (visits : site.method.Visits (index + 1)) (through : chunk.first.statement.leaves = false)
    (hne : rest ≠ []) : site.Tracked body ending rest := by
  obtain ⟨k, n', others, rfl, hothers⟩ := standing.rest_eq
  exact tracked_drop linked composed (Nat.le_add_left _ _) hothers
    ((List.suffix_append _ _).trans standing.suffix)
    (standing.visits_behind linked visits through) hne

-- The last item of code that lets nothing through is its last instruction.
theorem Standing.through_of_last {index : Nat} {chunk : Chunk} {code rest : List Item} {item : Item}
    (standing : site.Standing body ending index chunk code rest)
    (hlast : [item] <:+ chunk.labels.map .label ++ code)
    (hitem : ∀ op, item = .op op → op.isTerminator = false) :
    chunk.first.statement.leaves = false := by
  rw [← Bool.not_eq_true]
  intro leaves
  obtain ⟨before, op, rfl, terminator⟩ := standing.course.last leaves
  refine not_suffix_singleton_of_endsClosed ⟨op, ?_, terminator⟩ hitem hlast
  rw [← List.append_assoc, List.getLast?_concat]

theorem tracked_landing {target : List Item} {label : String} {id : Nat} (linked : site.method.Linked)
    (composed : site.Composed body ending) (unique : (labelsOf body).Nodup)
    (landing : .label label :: target <:+ body) (h : site.method.label? label = some id)
    (visits : site.method.Visits id) : site.Tracked body ending (.label label :: target) := by
  obtain ⟨index, chunk, code, rest, after, rfl, standing, hlabels⟩ :=
    standing_of_label? linked composed h
  have hpart : .label label :: (after.map .label ++ code) <:+ chunk.labels.map .label ++ code := by
    obtain ⟨before, heq⟩ := hlabels
    exact ⟨before.map .label, by rw [← heq]; simp⟩
  have hplace : .label label :: (after.map .label ++ code ++ rest) <:+ body := by
    obtain ⟨before, heq⟩ := hpart
    exact List.IsSuffix.trans ⟨before, by rw [← heq]; simp⟩ standing.suffix
  rw [eq_of_landings unique landing hplace]
  exact .inside standing visits hpart (List.cons_ne_nil _ _)

/-- A step through the body keeps to control flow. -/
theorem Tracked.step {place next : List Item} (linked : site.method.Linked)
    (composed : site.Composed body ending) (unique : (labelsOf body).Nodup)
    (h : site.Tracked body ending place) (flows : Flows body place next) (hne : next ≠ []) :
    site.Tracked body ending next := by
  cases h with
  | closing =>
    cases flows with
    | next _ through => cases through
    | jump _ htarget _ => cases htarget
  | @inside index chunk code rest part standing visits hpart hsome =>
    obtain ⟨item, others, rfl⟩ := List.exists_cons_of_ne_nil hsome
    -- Control that goes on to the next item is still in the chunk or comes out behind it.
    have hnext : (∀ op, item = .op op → op.isTerminator = false) → others ++ rest ≠ [] →
        site.Tracked body ending (others ++ rest) := by
      intro through hne
      by_cases hlast : others = []
      · subst hlast
        exact standing.tracked_rest linked composed visits (standing.through_of_last hpart through) hne
      · exact .inside standing visits ((List.suffix_cons item others).trans hpart) hlast
    cases flows with
    | label label => exact hnext (fun _ h => nomatch h) hne
    | next _ through =>
      refine hnext ?_ hne
      rintro _ ⟨⟩
      exact through
    | @jump op label target _ htarget landing =>
      have hop : .op op ∈ code := by
        have hmem := hpart.mem List.mem_cons_self
        simpa using hmem
      rcases standing.course.target hop htarget with hown | ⟨written, hjump, hfollow⟩
      · -- The label stands in the code of the same chunk.
        obtain ⟨after, before, heq⟩ := exists_landing (mem_labelsOf.mp hown)
        have hplace : .label label :: (after ++ rest) <:+ body := by
          refine List.IsSuffix.trans ⟨chunk.labels.map .label ++ before, ?_⟩ standing.suffix
          rw [← heq]
          simp
        rw [eq_of_landings unique landing hplace, ← List.cons_append]
        refine .inside standing visits ⟨chunk.labels.map .label ++ before, ?_⟩ (List.cons_ne_nil _ _)
        rw [← heq, List.append_assoc]
      · have hinst := standing.first_eq
        obtain ⟨id, hid⟩ := linked.label?_of_jump (List.mem_of_getElem? hinst) hjump
        obtain ⟨last, lastId, hlast, hlastId, hforwards⟩ := follow_ok linked hid
        cases hfollow.symm.trans hlast
        exact tracked_landing linked composed unique landing hlastId
          ((visits.jump linked hinst hjump hid).forwards linked hforwards)

theorem tracked_of_arrives {place : List Item} (linked : site.method.Linked)
    (composed : site.Composed body ending) (unique : (labelsOf body).Nodup) (h : Arrives body place) :
    site.Tracked body ending place := by
  induction h with
  | refl =>
    obtain ⟨n, n', items, hitems, rfl⟩ := composed.emitted
    have hne : items ++ ending ≠ [] := Arrives.ne_nil composed.closed .refl
    exact tracked_drop linked composed (Nat.le_add_left _ 0) (by simpa using hitems)
      (List.suffix_refl _) (fun _ => .start) hne
  | tail arrives flows ih =>
    have arrives : Arrives body _ := arrives
    exact ih.step linked composed unique flows ((arrives.step flows).ne_nil composed.closed)

-- ---------------------------------------------------------------------------
-- From control flow to the body
-- ---------------------------------------------------------------------------

/-- Control gets to the code of the chunk that the instruction is in. -/
def Covers (site : Site) (body ending : List Item) (id : Nat) : Prop :=
  ∃ index chunk code rest, site.Standing body ending index chunk code rest ∧ index < id ∧
    id ≤ index + chunk.width ∧ Arrives body (code ++ rest)

theorem Standing.covers {index : Nat} {chunk : Chunk} {code rest : List Item}
    (standing : site.Standing body ending index chunk code rest)
    (arrives : Arrives body (code ++ rest)) : site.Covers body ending (index + 1) :=
  ⟨index, chunk, code, rest, standing, Nat.lt_succ_self index,
    Nat.add_le_add_left chunk.width_pos index, arrives⟩

namespace Covers

variable {id : Nat} {inst : Instruction}

/-- An instruction other than a call has a chunk of its own or is the first of its chunk. -/
theorem standing (h : site.Covers body ending id) (hinst : site.method.instruction? id = some inst)
    (notCall : ∀ call, inst.statement ≠ .call call) :
    ∃ index chunk code rest, site.Standing body ending index chunk code rest ∧ inst = chunk.first ∧
      Arrives body (code ++ rest) := by
  obtain ⟨index, chunk, code, rest, standing, hafter, hwithin, arrives⟩ := h
  rcases standing.inst_cases hafter hwithin hinst with ⟨-, heq⟩ | ⟨-, -, call, hcall, -⟩
  · exact ⟨index, chunk, code, rest, standing, heq, arrives⟩
  · exact absurd hcall (notCall call)

theorem behind (h : site.Covers body ending id) (hinst : site.method.instruction? id = some inst)
    (through : inst.statement.leaves = false) (hlt : id < site.method.instructions.length) :
    site.Covers body ending (id + 1) := by
  obtain ⟨index, chunk, code, rest, standing, hafter, hwithin, arrives⟩ := h
  by_cases hinside : id < index + chunk.width
  · exact ⟨index, chunk, code, rest, standing, by omega, hinside, arrives⟩
  · obtain rfl : id = index + chunk.width := by omega
    have hfirst : chunk.first.statement.leaves = false := by
      rcases standing.inst_cases hafter hwithin hinst with ⟨-, rfl⟩ | ⟨-, hfirst, -⟩
      · exact through
      · exact hfirst
    obtain ⟨chunk', code', rest', standing', rfl⟩ := standing.behind hlt
    have hbehind := standing.course.arrives_behind hfirst arrives
    rw [List.append_assoc] at hbehind
    exact standing'.covers hbehind.labels

theorem jump (linked : site.method.Linked) (composed : site.Composed body ending)
    (h : site.Covers body ending id) (hinst : site.method.instruction? id = some inst) {label : String}
    {next : Nat} (hjump : inst.statement.jump? = some label)
    (hnext : site.method.label? label = some next) :
    ∃ last, site.method.Forwards next last ∧ site.Covers body ending last := by
  have notCall : ∀ call, inst.statement ≠ .call call := by
    intro call hcall
    rw [hcall] at hjump
    cases hjump
  obtain ⟨index, chunk, code, rest, standing, rfl, arrives⟩ := h.standing hinst notCall
  obtain ⟨target, hfollow, hlands⟩ := standing.course.arrives_target hjump arrives
  obtain ⟨last, lastId, hlast, hlastId, hforwards⟩ := follow_ok linked hnext
  cases hfollow.symm.trans hlast
  obtain ⟨index', chunk', code', rest', after, rfl, standing', before, hlabels⟩ :=
    standing_of_label? linked composed hlastId
  have hplace : .label target :: (after.map .label ++ (code' ++ rest')) <:+ body := by
    refine List.IsSuffix.trans ⟨before.map .label, ?_⟩ standing'.suffix
    rw [← hlabels]
    simp
  exact ⟨index' + 1, hforwards, standing'.covers ((hlands _ hplace).step (.label _ _)).labels⟩

-- By induction on the chain, for all places on it. Where the chain starts at a `goto`, the code goes to
-- some later place on it.
theorem along (linked : site.method.Linked) (composed : site.Composed body ending) {last : Nat}
    (hinst : site.method.instruction? last = some inst) (stays : ∀ label, inst.statement ≠ .goto label)
    (h : site.method.Forwards id last) :
    ∀ middle, site.method.Forwards id middle → site.Covers body ending middle →
      site.Covers body ending last := by
  induction h with
  | refl =>
    intro middle hmiddle covers
    cases hmiddle with
    | refl => exact covers
    | step hfirst hgoto =>
      cases hinst.symm.trans hfirst
      exact absurd hgoto (stays _)
  | @step id next last first label hfirst hgoto hnext hlater ih =>
    intro middle hmiddle covers
    cases hmiddle with
    | refl =>
      have hjump : first.statement.jump? = some label := by rw [hgoto]; rfl
      obtain ⟨target, hforwards, hcovers⟩ := covers.jump linked composed hfirst hjump hnext
      exact ih hinst target hforwards hcovers
    | step hfirst' hgoto' hnext' hmiddle =>
      cases hfirst.symm.trans hfirst'
      cases hgoto.symm.trans hgoto'
      cases hnext.symm.trans hnext'
      exact ih hinst middle hmiddle covers

end Covers

/-- Control gets to every instruction that control flow leads to, though not to jumps that others are
taken past. -/
theorem covers_of_visits (linked : site.method.Linked) (composed : site.Composed body ending)
    {id last : Nat} {inst : Instruction} (visits : site.method.Visits id)
    (h : site.method.Forwards id last) (hinst : site.method.instruction? last = some inst)
    (stays : ∀ label, inst.statement ≠ .goto label) : site.Covers body ending last := by
  induction visits generalizing last inst with
  | start =>
    have hlt : 0 < site.method.instructions.length := by
      cases h with
      | refl => exact (List.getElem?_eq_some_iff.mp hinst).1
      | step hfirst => exact (List.getElem?_eq_some_iff.mp hfirst).1
    obtain ⟨n, n', items, hitems, rfl⟩ := composed.emitted
    obtain ⟨chunk, code, rest, standing, heq⟩ :=
      standing_drop hlt (by simpa using hitems) (List.suffix_refl _)
    have arrives : Arrives (items ++ ending) (chunk.labels.map .label ++ (code ++ rest)) := by
      rw [← List.append_assoc, ← heq]
      exact .refl
    exact Covers.along linked composed hinst stays h 1 (.refl 1) (standing.covers arrives.labels)
  | @step before next first _ hfirst hsucc ih =>
    cases before with
    | zero => cases hfirst
    | succ index =>
      rcases linked.successor_cases hfirst hsucc with ⟨through, hlt, rfl⟩ | ⟨label, hjump, hlabel⟩
      · have notGoto : ∀ label, first.statement ≠ .goto label := by
          intro label hgoto
          rw [hgoto] at through
          cases through
        have covers := (ih (.refl _) hfirst notGoto).behind hfirst through hlt
        exact Covers.along linked composed hinst stays h _ (.refl _) covers
      · by_cases hgoto : ∃ written, first.statement = .goto written
        · obtain ⟨written, hgoto⟩ := hgoto
          rw [hgoto] at hjump
          cases hjump
          exact ih (.step hfirst hgoto hlabel h) hinst stays
        · have covers := ih (.refl _) hfirst fun written heq => hgoto ⟨written, heq⟩
          obtain ⟨target, hforwards, hcovers⟩ := covers.jump linked composed hfirst hjump hlabel
          exact Covers.along linked composed hinst stays h target hforwards hcovers

end Site

-- ---------------------------------------------------------------------------
-- Returns
-- ---------------------------------------------------------------------------

/-- Every path of control that stops does so at the return for the category. -/
def ReturnsAs (body : List Item) (category : Category) : Prop :=
  ∀ place, Arrives body place → StopsAt body place →
    place.head? = some (.op category.returnOp)

/-- The category of the type that a return is written with. -/
def Statement.returned? : Statement → Option Category
  | .ret _ ty => some ty.category
  | _ => none

theorem Statement.returned?_eq_some {statement : Statement} {category : Category} :
    statement.returned? = some category ↔
      ∃ value? ty, statement = .ret value? ty ∧ category = ty.category := by
  cases statement <;> simp [returned?, eq_comm]

/-- The returns that control flow leads to are written with types of the declared category. -/
def Method.ReturnsDeclared (method : Method) : Prop :=
  ∀ id inst category, method.Visits id → method.instruction? id = some inst →
    inst.statement.returned? = some category → category = method.ret.category

theorem Category.returnOp_inj {first second : Category} (h : first.returnOp = second.returnOp) :
    first = second := by
  cases first <;> cases second <;> cases h <;> rfl

namespace Site

variable {site : Site} {body ending : List Item} {n n' : Nat}

theorem Emitted.returns {chunks : List Chunk} {items : List Item}
    (hsub : ∀ chunk ∈ chunks, chunk ∈ Chunk.ofInstructions site.method.instructions)
    (h : site.Emitted n chunks items n') {op : StackOp} (hop : .op op ∈ items)
    (terminator : op.isTerminator = true) (htarget : op.target? = none) :
    ∃ category, op = category.returnOp ∧
      ∃ inst ∈ site.method.instructions, inst.statement.returned? = some category := by
  induction h with
  | nil n => cases hop
  | @cons n k n' chunk rest code others hcode _ ih =>
    obtain ⟨hchunk, hrest⟩ := List.forall_mem_cons.mp hsub
    simp only [List.mem_append, List.mem_map, reduceCtorEq, and_false, exists_false, false_or] at hop
    rcases hop with hop | hop
    · obtain ⟨value?, ty, hret, hop⟩ := (chunk_course hchunk hcode).returns hop terminator htarget
      cases chunk with
      | single inst =>
        exact ⟨ty.category, hop, inst, Chunk.mem_of_single hchunk,
          Statement.returned?_eq_some.mpr ⟨value?, ty, hret, rfl⟩⟩
      | fused inst construction =>
        obtain ⟨next, -, hof⟩ := Chunk.exists_of_fused hchunk
        obtain ⟨-, ⟨_, hassign⟩, -⟩ := Construction.source_of_of? hof
        cases hassign.symm.trans hret
    · exact ih hrest hop

/-- Control stops only at a return. It is for the declared category, or as a return of the method is
written. -/
theorem stops_at_return {lowered : MethodListing} {place : List Item} (linked : site.method.Linked)
    (h : site.listing n = (.ok lowered, n')) (arrives : Arrives lowered.body place)
    (stops : StopsAt lowered.body place) :
    ∃ category, place.head? = some (.op category.returnOp) ∧
      (category = site.method.ret.category ∨
        ∃ inst ∈ site.method.instructions, inst.statement.returned? = some category) := by
  obtain ⟨ending, composed⟩ := composed_of_listing h
  obtain ⟨op, rest, rfl, terminator, htarget⟩ :=
    arrives.op_of_stopsAt composed.closed (listing_jumpsLand linked h) stops
  obtain ⟨n, n', items, hitems, hbody⟩ := composed.emitted
  have hop : .op op ∈ items ++ ending := hbody ▸ arrives.suffix.mem List.mem_cons_self
  rcases List.mem_append.mp hop with hop | hop
  · obtain ⟨category, rfl, hwritten⟩ :=
      hitems.returns (fun _ hchunk => hchunk) hop terminator htarget
    exact ⟨category, rfl, .inr hwritten⟩
  · rcases composed.ending_eq with rfl | ⟨hvoid, rfl⟩
    · cases hop
    · obtain rfl := List.mem_singleton.mp (mem_ops.mp hop)
      exact ⟨.void, rfl, .inl (by rw [hvoid]; rfl)⟩

theorem returnsAs_iff {lowered : MethodListing} (linked : site.method.Linked)
    (h : site.listing n = (.ok lowered, n')) (unique : (labelsOf lowered.body).Nodup) :
    ReturnsAs lowered.body site.method.ret.category ↔ site.method.ReturnsDeclared := by
  obtain ⟨ending, composed⟩ := composed_of_listing h
  constructor
  · intro returns id inst category visits hinst hwritten
    obtain ⟨value?, ty, hret, rfl⟩ := Statement.returned?_eq_some.mp hwritten
    have covers := covers_of_visits linked composed visits (.refl id) hinst (by simp [hret])
    obtain ⟨index, chunk, code, rest, standing, rfl, arrives⟩ :=
      covers.standing hinst (by simp [hret])
    have course := standing.course
    rw [hret] at course
    obtain ⟨target, terminator, -⟩ := ty.category.returnOp_leaves
    have hplace := returns _ (course.arrives_return arrives) (stopsAt_of_leaves terminator target)
    exact Category.returnOp_inj (Item.op.inj (Option.some.inj hplace))
  · intro declared place arrives stops
    obtain ⟨op, rest, rfl, terminator, htarget⟩ :=
      arrives.op_of_stopsAt composed.closed (listing_jumpsLand linked h) stops
    generalize hplace : Item.op op :: rest = place at arrives
    cases tracked_of_arrives linked composed unique arrives with
    | @inside index chunk code rest' part standing visits hpart hsome =>
      obtain ⟨item, others, rfl⟩ := List.exists_cons_of_ne_nil hsome
      obtain ⟨rfl, -⟩ := List.cons.inj hplace
      have hop : .op op ∈ code := by
        have hmem := hpart.mem List.mem_cons_self
        simpa using hmem
      obtain ⟨value?, ty, hret, rfl⟩ := standing.course.returns hop terminator htarget
      have hwritten := Statement.returned?_eq_some.mpr ⟨value?, ty, hret, rfl⟩
      rw [← declared (index + 1) chunk.first ty.category visits standing.first_eq hwritten]
      rfl
    | closing hvoid =>
      cases hplace
      rw [hvoid]
      rfl

end Site

theorem ClassUnit.lower_returns_iff {unit : ClassUnit} {file : Nat} {source : String}
    {listing : Listing} (hread : (read file source).1 = some unit) (h : unit.lower = .ok listing) :
    ∀ (index : Nat) (method : Method), unit.methods[index]? = some method →
      ∃ lowered, listing.methods[index]? = some lowered ∧
        (∀ place, Arrives lowered.body place → StopsAt lowered.body place →
          ∃ category, place.head? = some (.op category.returnOp) ∧
            (category = method.ret.category ∨
              ∃ inst ∈ method.instructions, inst.statement.returned? = some category)) ∧
        ((labelsOf lowered.body).Nodup →
          (ReturnsAs lowered.body method.ret.category ↔ method.ReturnsDeclared)) := by
  intro index method hmethod
  obtain ⟨lowered, k, k', hlowered, hlisting⟩ := (listed_of_lower h).getElem? hmethod
  have linked := (built_of_read hread).linked method (List.mem_of_getElem? hmethod)
  exact ⟨lowered, hlowered,
    fun _ arrives stops =>
      @Site.stops_at_return { unit, method } k k' lowered _ linked hlisting arrives stops,
    fun unique => @Site.returnsAs_iff { unit, method } k k' lowered linked hlisting unique⟩

def signText : String :=
  "Sign \x7b
.method public static of(x.i32).i32 \x7b
if (x.i32 <.bool 0.i32) goto low;
goto up;
up:
ret.i32 1.i32;
low:
ret.bool 0.bool;
\x7d
.method public static lost().V \x7b
goto out;
ret.V;
out:
ret.i32 1.i32;
\x7d
\x7d"

def signOf : Method :=
  let start := { Draft.new "of" .int32 with isStatic := true }.addParam "x" .int32
  let jumps := (start.push (.branch
    (.binary { op := .lt, left := .operand "x" .int32, right := .literal (.int 0) .int32 }) "low")).push
    (.goto "up")
  let draft := (((jumps.label "up").push (.ret (some (.literal (.int 1) .int32)) .int32)).label
    "low").push (.ret (some (.literal (.bool false) .boolean)) .boolean)
  match draft.build with
  | .ok method => method
  | .error _ => draft.unlinked

def signLost : Method :=
  let start := { Draft.new "lost" .void with isStatic := true }
  let draft := (((start.push (.goto "out")).push (.ret none .void)).label "out").push
    (.ret (some (.literal (.int 1) .int32)) .int32)
  match draft.build with
  | .ok method => method
  | .error _ => draft.unlinked

def signUnit : ClassUnit where
  name := "Sign"
  super? := none
  access := .pub
  isFinal := false
  imports := []
  fields := []
  methods := [signOf, signLost]

def signOfBody : List Item :=
  ops [.iload 0, .ifZero .lt "low", .goto "up"] ++ .label "up" :: ops [.iconst 1, .ireturn] ++
    .label "low" :: ops [.iconst 0, .ireturn]

def signLostBody : List Item :=
  ops [.goto "out", .ret] ++ .label "out" :: ops [.iconst 1, .ireturn]

/-- The returns of the first method are all as it declares. Control flow passes over the one return of
the second that is. -/
theorem lower_returns_iff_sign :
    (read 0 signText).1 = some signUnit ∧ ∃ listing, signUnit.lower = .ok listing ∧
      listing.methods.map MethodListing.body = [signOfBody, signLostBody] ∧
      ReturnsAs signOfBody .integer ∧ ¬ ReturnsAs signLostBody .void := by
  have hread : (read 0 signText).1 = some signUnit := by decide +kernel
  have bodies : signUnit.lower.toOption.map (fun listing => listing.methods.map MethodListing.body)
      = some [signOfBody, signLostBody] := by decide +kernel
  refine ⟨hread, ?_⟩
  cases hlower : signUnit.lower with
  | error failure =>
    rw [hlower] at bodies
    cases bodies
  | ok listing =>
    rw [hlower] at bodies
    have bodies := Option.some.inj bodies
    have hbody : ∀ index : Nat, (listing.methods[index]?).map MethodListing.body
        = [signOfBody, signLostBody][index]? := by
      intro index
      rw [← bodies, List.getElem?_map]
    obtain ⟨first, hfirst, -, hof⟩ := ClassUnit.lower_returns_iff hread hlower 0 signOf rfl
    obtain ⟨second, hsecond, -, hlost⟩ := ClassUnit.lower_returns_iff hread hlower 1 signLost rfl
    have firstBody := hbody 0
    have secondBody := hbody 1
    rw [hfirst] at firstBody
    rw [hsecond] at secondBody
    rw [Option.some.inj firstBody] at hof
    rw [Option.some.inj secondBody] at hlost
    refine ⟨listing, rfl, bodies, (hof (by decide)).mpr ?_, fun returns => ?_⟩
    · intro id inst category _ hinst hwritten
      have all : ∀ inst ∈ signOf.instructions,
          inst.statement.returned? = none ∨ inst.statement.returned? = some .integer := by
        decide +kernel
      rcases all inst (Method.mem_of_instruction? hinst) with hnone | hinteger
      · cases hnone.symm.trans hwritten
      · exact (Option.some.inj (hinteger.symm.trans hwritten)).symm
    · have visits : signLost.Visits 3 := .step .start rfl List.mem_cons_self
      cases (hlost (by decide)).mp returns 3 _ .integer visits rfl rfl

def kindsText : String :=
  "Kinds \x7b
.method public static f().V \x7b
ret.i32 1.i32;
\x7d
\x7d"

def kindsMethod : Method :=
  let draft := { Draft.new "f" .void with isStatic := true }.push
    (.ret (some (.literal (.int 1) .int32)) .int32)
  match draft.build with
  | .ok method => method
  | .error _ => draft.unlinked

def kindsUnit : ClassUnit := { signUnit with name := "Kinds", methods := [kindsMethod] }

/-- A method that is to return nothing returns a number. -/
theorem lower_returns_undeclared :
    ∃ listing lowered, (read 0 kindsText).1 = some kindsUnit ∧ kindsUnit.lower = .ok listing ∧
      listing.methods[0]? = some lowered ∧ kindsMethod.ret = .void ∧
      Arrives lowered.body (ops [.ireturn]) ∧ StopsAt lowered.body (ops [.ireturn]) := by
  obtain ⟨listing, lowered, hlower, hlowered, hbody⟩ :=
    @ClassUnit.exists_lowered kindsUnit 0 (ops [.iconst 1, .ireturn]) (by decide +kernel)
  have start : Arrives lowered.body (ops [.iconst 1, .ireturn]) := by
    rw [hbody]
    exact .refl
  exact ⟨listing, lowered, by decide +kernel, hlower, hlowered, rfl, start.step (.next _ rfl),
    stopsAt_of_leaves rfl rfl⟩

end ThreeAddress
