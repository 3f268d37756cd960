import Mathlib.Logic.Relation
import ThreeAddress.Proofs.Closed

/-!
# The course of control through code

`Flows` is a step of control through a body, whatever the stack holds, so both outcomes of a test are
open. `Site.Course` says what way the code of a statement gives control: a jump goes where its label
leads by way of other jumps, a return ends in the return for the type that it is written with, and every
other statement is crossed. `Site.chunk_course` is the main statement. The lemmas behind it say where
control can get to from the start of such code, and what its instructions can do with it.
-/

namespace ThreeAddress

open Relation (ReflTransGen)
open ThreeAddress.Frame (EndsClosed)

-- ---------------------------------------------------------------------------
-- Paths
-- ---------------------------------------------------------------------------

/-- Control goes from one place of the body to another. A place is given by the items from there on. -/
inductive Flows (body : List Item) : List Item → List Item → Prop
  | label (label : String) (rest : List Item) : Flows body (.label label :: rest) rest
  | next {op : StackOp} (rest : List Item) : op.isTerminator = false → Flows body (.op op :: rest) rest
  | jump {op : StackOp} {label : String} {target : List Item} (rest : List Item) :
    op.target? = some label → .label label :: target <:+ body →
    Flows body (.op op :: rest) (.label label :: target)

/-- Control can get to the place. -/
def Arrives (body : List Item) : List Item → Prop := ReflTransGen (Flows body) body

/-- Control goes on nowhere from the place. -/
def StopsAt (body place : List Item) : Prop := ∀ next, ¬ Flows body place next

section

variable {body rest : List Item}

theorem Arrives.step {place next : List Item} (h : Arrives body place) (flows : Flows body place next) :
    Arrives body next :=
  ReflTransGen.tail h flows

theorem Arrives.suffix {place : List Item} (h : Arrives body place) : place <:+ body := by
  induction h with
  | refl => exact List.suffix_refl body
  | tail _ step ih =>
    cases step with
    | label => exact (List.suffix_cons _ _).trans ih
    | next => exact (List.suffix_cons _ _).trans ih
    | jump _ _ target => exact target

theorem not_suffix_singleton_of_endsClosed {item : Item} (closed : EndsClosed body)
    (through : ∀ op, item = .op op → op.isTerminator = false) : ¬ [item] <:+ body := by
  rintro ⟨before, rfl⟩
  obtain ⟨op, hlast, terminator⟩ := closed
  rw [List.getLast?_concat, Option.some.injEq] at hlast
  rw [through op hlast] at terminator
  cases terminator

-- The body ends in an instruction that lets nothing through.
theorem Arrives.ne_nil {place : List Item} (closed : EndsClosed body) (h : Arrives body place) :
    place ≠ [] := by
  cases h with
  | refl =>
    rintro rfl
    obtain ⟨op, hlast, -⟩ := closed
    cases hlast
  | tail arrives step =>
    have suffix : _ <:+ body := Arrives.suffix arrives
    cases step with
    | label =>
      rintro rfl
      refine not_suffix_singleton_of_endsClosed closed ?_ suffix
      rintro _ ⟨⟩
    | next _ through =>
      rintro rfl
      refine not_suffix_singleton_of_endsClosed closed ?_ suffix
      rintro _ ⟨⟩
      exact through
    | jump => exact List.cons_ne_nil _ _

theorem exists_landing {label : String} (h : .label label ∈ body) :
    ∃ target, .label label :: target <:+ body := by
  obtain ⟨before, target, rfl⟩ := List.append_of_mem h
  exact ⟨target, before, rfl⟩

/-- Where labels lead somewhere, control stops only at an instruction that leaves the method. -/
theorem Arrives.op_of_stopsAt {place : List Item} (closed : EndsClosed body) (lands : JumpsLand body)
    (h : Arrives body place) (stops : StopsAt body place) :
    ∃ op rest, place = .op op :: rest ∧ op.isTerminator = true ∧ op.target? = none := by
  cases place with
  | nil => exact absurd rfl (h.ne_nil closed)
  | cons item rest =>
    cases item with
    | label label => exact absurd (.label label rest) (stops rest)
    | op op =>
      refine ⟨op, rest, rfl, ?_, ?_⟩
      · rw [← Bool.not_eq_false]
        exact fun through => stops rest (.next rest through)
      · cases htarget : op.target? with
        | none => rfl
        | some label =>
          have hop : .op op ∈ body := h.suffix.mem List.mem_cons_self
          obtain ⟨target, htail⟩ := exists_landing (lands op label hop htarget)
          exact absurd (.jump rest htarget htail) (stops _)

theorem stopsAt_of_leaves {op : StackOp} (terminator : op.isTerminator = true)
    (target : op.target? = none) : StopsAt body (.op op :: rest) := by
  intro next flows
  cases flows with
  | next _ through => cases terminator.symm.trans through
  | jump _ jumps _ => cases target.symm.trans jumps

theorem Arrives.labels {labels : List String} (h : Arrives body (labels.map .label ++ rest)) :
    Arrives body rest := by
  induction labels with
  | nil => exact h
  | cons label others ih => exact ih (h.step (.label label _))

theorem Arrives.row {row : List StackOp} (plain : ∀ op ∈ row, op.Plain)
    (h : Arrives body (ops row ++ rest)) : Arrives body rest := by
  induction row with
  | nil => exact h
  | cons op others ih =>
    obtain ⟨hop, hothers⟩ := List.forall_mem_cons.mp plain
    exact ih hothers (h.step (.next _ hop.2))

end

-- ---------------------------------------------------------------------------
-- Code
-- ---------------------------------------------------------------------------

/-- Control comes out behind the items, and nowhere else. -/
inductive Crossed : List Item → Prop
  | row {row : List StackOp} : (∀ op ∈ row, op.Plain) → Crossed (ops row)
  | comparison {number : Nat} {before after : List StackOp} {jump : StackOp} :
    (∀ op ∈ before, op.Plain) → jump.target? = some (holdsLabel number) →
    jump.isTerminator = false → (∀ op ∈ after, op.Plain) →
    Crossed (ops before ++ ops [jump] ++ verdict number ++ ops after)

namespace Crossed

variable {code : List Item}

theorem arrives {body rest : List Item} (crossed : Crossed code) (h : Arrives body (code ++ rest)) :
    Arrives body rest := by
  cases crossed with
  | row plain => exact h.row plain
  | @comparison number before after jump plain _ through plain' =>
    simp only [List.append_assoc] at h
    -- Control can go on behind the jump, and from there to the second label.
    have hverdict : Arrives body (verdict number ++ (ops after ++ rest)) :=
      (h.row plain).step (.next _ through)
    have hgoto := hverdict.step (.next _ rfl)
    have hend : .label (endLabel number) :: (ops after ++ rest) <:+ body := by
      refine List.IsSuffix.trans ?_ hgoto.suffix
      exact ⟨[.op (.goto (endLabel number)), .label (holdsLabel number), .op (.iconst 1)], rfl⟩
    exact ((hgoto.step (.jump _ rfl hend)).step (.label _ _)).row plain'

theorem target {op : StackOp} {label : String} (crossed : Crossed code) (hop : .op op ∈ code)
    (htarget : op.target? = some label) : label ∈ labelsOf code := by
  cases crossed with
  | row plain => cases (plain op (Site.mem_ops.mp hop)).1.symm.trans htarget
  | @comparison number before after jump plain hjump _ plain' =>
    simp only [labelsOf_append, labelsOf_ops, List.nil_append, List.append_nil]
    have own : label = holdsLabel number ∨ label = endLabel number := by
      simp only [List.mem_append, Site.mem_ops, List.mem_singleton] at hop
      rcases hop with ((hbefore | rfl) | hverdict) | hafter
      · cases (plain op hbefore).1.symm.trans htarget
      · exact .inl (Option.some.inj (htarget.symm.trans hjump))
      · simp only [verdict, List.mem_cons, Item.op.injEq, reduceCtorEq, List.not_mem_nil, or_false,
          false_or] at hverdict
        rcases hverdict with rfl | rfl | rfl
        · cases htarget
        · exact .inr (Option.some.inj htarget.symm)
        · cases htarget
      · cases (plain' op hafter).1.symm.trans htarget
    have hlabels : labelsOf (verdict number) = [holdsLabel number, endLabel number] := rfl
    rw [hlabels]
    simpa using own

theorem not_leaves {op : StackOp} (crossed : Crossed code) (hop : .op op ∈ code)
    (terminator : op.isTerminator = true) : op.target? ≠ none := by
  cases crossed with
  | row plain => cases (plain op (Site.mem_ops.mp hop)).2.symm.trans terminator
  | @comparison number before after jump plain hjump _ plain' =>
    simp only [List.mem_append, Site.mem_ops, List.mem_singleton] at hop
    rcases hop with ((hbefore | rfl) | hverdict) | hafter
    · cases (plain op hbefore).2.symm.trans terminator
    · rw [hjump]
      exact Option.some_ne_none _
    · simp only [verdict, List.mem_cons, Item.op.injEq, reduceCtorEq, List.not_mem_nil, or_false,
        false_or] at hverdict
      rcases hverdict with rfl | rfl | rfl
      · cases terminator
      · exact Option.some_ne_none _
      · cases terminator
    · cases (plain' op hafter).2.symm.trans terminator

end Crossed

namespace Site

/-- What way the code gives control, by the statement that it is for. -/
inductive Course (site : Site) : Statement → List Item → Prop
  | goto {label target : String} : site.follow label = .ok target →
    Course site (.goto label) (ops [.goto target])
  | branch {condition : Condition} {label target : String} {row : List StackOp} {op : StackOp} :
    site.follow label = .ok target → (∀ op ∈ row, op.Plain) → op.target? = some target →
    op.isTerminator = false → Course site (.branch condition label) (ops row ++ ops [op])
  | ret {value? : Option Element} {ty : Ty} {row : List StackOp} : (∀ op ∈ row, op.Plain) →
    Course site (.ret value? ty) (ops row ++ ops [ty.category.returnOp])
  | through {statement : Statement} {code : List Item} : statement.leaves = false →
    statement.jump? = none → Crossed code → Course site statement code

variable {site : Site} {n n' : Nat}

theorem Pushes.exists_row {items : List Item} {count : Nat} (h : site.Pushes items count) :
    ∃ row, items = ops row ∧ ∀ op ∈ row, op.Plain := by
  obtain ⟨row, rfl, straight, -⟩ := h
  exact ⟨row, rfl, fun op => (straight 0).plain⟩

theorem Shifts.crossed {items : List Item} {shift : Int} (h : Shifts items shift) : Crossed items := by
  obtain ⟨row, rfl, plain, -⟩ := h
  exact .row plain

theorem crossed_of_value {rhs : Statement} {before items : List Item} {below : Nat} {store : StackOp}
    (hbefore : site.Pushes before below) (plain : store.Plain)
    (h : site.value rhs n = (.ok items, n')) : Crossed (before ++ items ++ ops [store]) := by
  have hstore := shifts_op plain
  rcases value_ok h with ⟨-, count, -, hitems, -⟩ | ⟨-, jump, hjump, rfl⟩
  · exact ((hbefore.shifts.append hitems.shifts).append hstore).crossed
  · obtain ⟨loaded, op, rfl, hloaded, htarget, hthrough, -⟩ := hjump
    obtain ⟨row, hrow, hplain⟩ := (hbefore.append hloaded).exists_row
    obtain ⟨last, hlast, hplain', -⟩ := hstore
    rw [hlast]
    simpa only [← hrow, List.append_assoc] using
      @Crossed.comparison n _ _ _ hplain htarget hthrough hplain'

theorem crossed_of_unused {rhs : Statement} {items : List Item}
    (h : (do let pushed ← site.value rhs; pure (pushed ++ ops [.pop]) : Emit (List Item)) n
      = (.ok items, n')) : Crossed items := by
  simp only [Emit.bind_ok, Emit.pure_ok] at h
  obtain ⟨pushed, _, hvalue, rfl, -⟩ := h
  exact @crossed_of_value site _ _ _ [] _ 0 .pop pushes_nil ⟨rfl, rfl⟩ hvalue

theorem crossed_of_assign {dest : Element} {rhs : Statement} {items : List Item}
    (h : site.assign dest rhs n = (.ok items, n')) : Crossed items := by
  unfold assign at h
  cases hincrement : site.increment? dest rhs with
  | some increment =>
    rw [hincrement] at h
    obtain ⟨rfl, -⟩ := Emit.pure_ok.mp h
    exact (pushes_iinc hincrement).shifts.crossed
  | none =>
    rw [hincrement] at h
    simp only [Emit.bind_ok, Emit.lift_ok, Emit.pure_ok] at h
    obtain ⟨⟨before, store⟩, _, ⟨hplace, -⟩, stored, _, hvalue, rfl, -⟩ := h
    obtain ⟨_, hbefore, plain, -⟩ := place_pushes hplace
    exact crossed_of_value hbefore plain hvalue

theorem statement_course {statement : Statement} {code : List Item}
    (h : site.statement statement n = (.ok code, n')) : site.Course statement code := by
  cases statement with
  | assign dest ty rhs => exact .through rfl rfl (crossed_of_assign h)
  | call c => exact .through rfl rfl (call_shifts h).2.crossed
  | goto label =>
    simp only [Site.statement, Emit.bind_ok, Emit.lift_ok, Emit.pure_ok] at h
    obtain ⟨target, _, ⟨hfollow, -⟩, rfl, -⟩ := h
    exact .goto hfollow
  | branch condition label =>
    simp only [Site.statement, Emit.bind_ok, Emit.lift_ok] at h
    obtain ⟨target, _, ⟨hfollow, -⟩, hbranch⟩ := h
    obtain ⟨-, loaded, op, rfl, hloaded, htarget, hthrough, -⟩ := branchTo_jumps hbranch
    obtain ⟨row, rfl, plain⟩ := hloaded.exists_row
    exact .branch hfollow plain htarget hthrough
  | ret value? ty =>
    obtain ⟨hret, -⟩ := Emit.lift_ok.mp h
    obtain ⟨loaded, rfl, hloaded⟩ := ret_ok hret
    obtain ⟨row, rfl, plain⟩ := hloaded.exists_row
    exact .ret plain
  | putField object field value =>
    obtain ⟨hput, -⟩ := Emit.lift_ok.mp h
    exact .through rfl rfl (putField_pushes hput).shifts.crossed
  | getField object field ty => exact .through rfl rfl (crossed_of_unused h)
  | unary u => exact .through rfl rfl (crossed_of_unused h)
  | binary b => exact .through rfl rfl (crossed_of_unused h)
  | element e => exact .through rfl rfl (crossed_of_unused h)

end Site

/-- The instruction that the labels of the chunk stand for. -/
def Chunk.first : Chunk → Instruction
  | .single inst | .fused inst _ => inst

theorem Chunk.labels_eq (chunk : Chunk) : chunk.labels = chunk.first.labels := by
  cases chunk <;> rfl

namespace Site

variable {site : Site} {n n' : Nat}

theorem chunk_course {insts : List Instruction} {chunk : Chunk} {code : List Item}
    (hmem : chunk ∈ Chunk.ofInstructions insts) (h : site.chunk chunk n = (.ok code, n')) :
    site.Course chunk.first.statement code := by
  cases chunk with
  | single inst => exact statement_course h
  | fused inst construction =>
    obtain ⟨next, -, hof⟩ := Chunk.exists_of_fused hmem
    obtain ⟨-, ⟨ty, hassign⟩, -⟩ := Construction.source_of_of? hof
    obtain ⟨hcode, -⟩ := Emit.lift_ok.mp h
    show site.Course inst.statement code
    rw [hassign]
    exact .through rfl rfl (construction_shifts hcode).crossed

-- ---------------------------------------------------------------------------
-- What the instructions of the code do
-- ---------------------------------------------------------------------------

namespace Course

variable {statement : Statement} {code : List Item}

theorem target {op : StackOp} {label : String} (course : site.Course statement code)
    (hop : .op op ∈ code) (htarget : op.target? = some label) :
    label ∈ labelsOf code ∨
      ∃ written, statement.jump? = some written ∧ site.follow written = .ok label := by
  cases course with
  | @goto written target follow =>
    obtain rfl := List.mem_singleton.mp (mem_ops.mp hop)
    cases htarget
    exact .inr ⟨written, rfl, follow⟩
  | @branch condition written target row last follow plain hlast _ =>
    rcases List.mem_append.mp hop with hop | hop
    · cases (plain op (mem_ops.mp hop)).1.symm.trans htarget
    · obtain rfl := List.mem_singleton.mp (mem_ops.mp hop)
      cases hlast.symm.trans htarget
      exact .inr ⟨written, rfl, follow⟩
  | @ret value? ty row plain =>
    rcases List.mem_append.mp hop with hop | hop
    · cases (plain op (mem_ops.mp hop)).1.symm.trans htarget
    · obtain rfl := List.mem_singleton.mp (mem_ops.mp hop)
      cases ty.category.returnOp_leaves.1.symm.trans htarget
  | through _ _ crossed => exact .inl (crossed.target hop htarget)

/-- An instruction that leaves the method is the return that the statement asks for. -/
theorem returns {op : StackOp} (course : site.Course statement code) (hop : .op op ∈ code)
    (terminator : op.isTerminator = true) (htarget : op.target? = none) :
    ∃ value? ty, statement = .ret value? ty ∧ op = ty.category.returnOp := by
  cases course with
  | goto follow =>
    obtain rfl := List.mem_singleton.mp (mem_ops.mp hop)
    cases htarget
  | branch follow plain hlast through =>
    rcases List.mem_append.mp hop with hop | hop
    · cases (plain op (mem_ops.mp hop)).2.symm.trans terminator
    · obtain rfl := List.mem_singleton.mp (mem_ops.mp hop)
      cases through.symm.trans terminator
  | @ret value? ty row plain =>
    rcases List.mem_append.mp hop with hop | hop
    · cases (plain op (mem_ops.mp hop)).2.symm.trans terminator
    · exact ⟨value?, ty, rfl, List.mem_singleton.mp (mem_ops.mp hop)⟩
  | through _ _ crossed => exact absurd htarget (crossed.not_leaves hop terminator)

/-- Control does not get past a jump that is always taken, or past a return. -/
theorem last (course : site.Course statement code) (leaves : statement.leaves = true) :
    ∃ before op, code = before ++ [.op op] ∧ op.isTerminator = true := by
  cases course with
  | @goto written target follow => exact ⟨[], .goto target, rfl, rfl⟩
  | branch => cases leaves
  | @ret value? ty row plain =>
    exact ⟨ops row, ty.category.returnOp, rfl, ty.category.returnOp_leaves.2.1⟩
  | through stays => cases stays.symm.trans leaves

-- ---------------------------------------------------------------------------
-- Where control gets to from the start of the code
-- ---------------------------------------------------------------------------

variable {body rest : List Item}

theorem arrives_behind (course : site.Course statement code) (through : statement.leaves = false)
    (h : Arrives body (code ++ rest)) : Arrives body rest := by
  cases course with
  | goto => cases through
  | branch _ plain _ hthrough =>
    rw [List.append_assoc] at h
    exact (h.row plain).step (.next _ hthrough)
  | ret => cases through
  | through _ _ crossed => exact crossed.arrives h

theorem arrives_target {written : String} (course : site.Course statement code)
    (jumps : statement.jump? = some written) (h : Arrives body (code ++ rest)) :
    ∃ label, site.follow written = .ok label ∧
      ∀ target, .label label :: target <:+ body → Arrives body (.label label :: target) := by
  cases course with
  | @goto label target follow =>
    cases jumps
    exact ⟨target, follow, fun _ landing => h.step (.jump _ rfl landing)⟩
  | @branch condition label target row op follow plain htarget _ =>
    cases jumps
    rw [List.append_assoc] at h
    exact ⟨target, follow, fun _ landing => (h.row plain).step (.jump _ htarget landing)⟩
  | ret => cases jumps
  | through _ none => cases none.symm.trans jumps

theorem arrives_return {value? : Option Element} {ty : Ty}
    (course : site.Course (.ret value? ty) code) (h : Arrives body (code ++ rest)) :
    Arrives body (.op ty.category.returnOp :: rest) := by
  cases course with
  | ret plain =>
    rw [List.append_assoc] at h
    exact h.row plain
  | through stays => cases stays

end Course

end Site

end ThreeAddress
