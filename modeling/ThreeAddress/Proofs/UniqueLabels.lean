import ThreeAddress.Proofs.Accepted
import ThreeAddress.Proofs.StackLimits

/-!
# When labels are unique

The labels of a body are those that its instructions carry and those that lowering makes up for the
comparisons in it, two for each number it draws (`Site.listing_labels_perm`). Nothing keeps the two kinds
apart. The numbers run through the whole class, so which labels are made up for a method depends on how
many comparisons come before it. No label stands twice in any body exactly if no method carries one that
is made up for a comparison of its own (`ClassUnit.LabelsClear`).
-/

namespace ThreeAddress

/-- The labels made up for `count` numbers from `start` on. -/
def madeLabels : (start count : Nat) → List String
  | _, 0 => []
  | start, count + 1 => holdsLabel start :: endLabel start :: madeLabels (start + 1) count

theorem madeLabels_add (start first second : Nat) :
    madeLabels start (first + second) = madeLabels start first ++ madeLabels (start + first) second := by
  induction first generalizing start with
  | zero => simp [madeLabels]
  | succ first ih =>
    rw [Nat.add_right_comm, madeLabels, madeLabels, ih, List.cons_append, List.cons_append,
      Nat.add_right_comm start, Nat.add_assoc start]

theorem mem_madeLabels {start count : Nat} {label : String} :
    label ∈ madeLabels start count ↔ Site.Drawn start (start + count) label := by
  induction count generalizing start with
  | zero =>
    constructor
    · exact fun h => absurd h List.not_mem_nil
    · rintro ⟨number, hle, hlt, -⟩
      omega
  | succ count ih =>
    simp only [madeLabels, List.mem_cons, ih]
    constructor
    · rintro (rfl | rfl | ⟨number, hle, hlt, hlabel⟩)
      · exact ⟨start, Nat.le_refl _, by omega, .inl rfl⟩
      · exact ⟨start, Nat.le_refl _, by omega, .inr rfl⟩
      · exact ⟨number, by omega, by omega, hlabel⟩
    · rintro ⟨number, hle, hlt, hlabel⟩
      by_cases heq : number = start
      · subst heq
        exact hlabel.imp_right .inl
      · exact .inr (.inr ⟨number, by omega, by omega, hlabel⟩)

theorem nodup_madeLabels (start count : Nat) : (madeLabels start count).Nodup := by
  induction count generalizing start with
  | zero => exact List.nodup_nil
  | succ count ih =>
    -- A label for the first number is not made again for a later one.
    have fresh : ∀ label, label = holdsLabel start ∨ label = endLabel start →
        label ∉ madeLabels (start + 1) count := by
      intro label hlabel hmem
      have first : Site.Drawn start (start + 1) label :=
        ⟨start, Nat.le_refl _, Nat.lt_succ_self _, hlabel⟩
      exact first.disjoint (mem_madeLabels.mp hmem)
    refine List.nodup_cons.mpr ⟨?_, List.nodup_cons.mpr ⟨fresh _ (.inr rfl), ih _⟩⟩
    intro hmem
    rcases List.mem_cons.mp hmem with heq | hmem
    · exact holdsLabel_ne_endLabel start start heq
    · exact fresh _ (.inl rfl) hmem

-- ---------------------------------------------------------------------------
-- Statements
-- ---------------------------------------------------------------------------

def Statement.isComparison : Statement → Bool
  | .binary b => b.op.isComparison
  | _ => false

/-- The outcome of a comparison becomes a value, for which lowering draws a number. -/
def Statement.drawsNumber : Statement → Bool
  | .assign _ _ rhs => rhs.isComparison
  | statement => statement.isComparison

namespace Site

variable {site : Site} {n n' : Nat}

/-- The items have labels for `count` numbers, and these are the numbers drawn for them. -/
def Labelled (n count : Nat) (items : List Item) (n' : Nat) : Prop :=
  n' = n + count ∧ labelsOf items = madeLabels n count

theorem Pushes.labelled {items : List Item} {count : Nat} (h : site.Pushes items count) :
    Labelled n 0 items n :=
  ⟨rfl, h.labelsOf⟩

theorem Jumps.labelled {items : List Item} {label : String} {always : Bool}
    (h : site.Jumps items label always) : Labelled n 0 items n :=
  ⟨rfl, h.labelsOf⟩

theorem Labelled.after {before items : List Item} {count below : Nat} (h : Labelled n count items n')
    (hbefore : site.Pushes before below) : Labelled n count (before ++ items) n' := by
  refine ⟨h.1, ?_⟩
  rw [labelsOf_append, hbefore.labelsOf, List.nil_append]
  exact h.2

theorem Labelled.append_ops {items : List Item} {count : Nat} (h : Labelled n count items n')
    (row : List StackOp) : Labelled n count (items ++ ops row) n' := by
  refine ⟨h.1, ?_⟩
  rw [labelsOf_append, labelsOf_ops, List.append_nil]
  exact h.2

theorem value_labelled {rhs : Statement} {items : List Item} (h : site.value rhs n = (.ok items, n')) :
    Labelled n rhs.isComparison.toNat items n' := by
  cases rhs with
  | element e =>
    obtain ⟨hload, rfl⟩ := Emit.lift_ok.mp h
    exact (load_pushes hload).labelled
  | call c =>
    obtain ⟨hcall, rfl⟩ := Emit.lift_ok.mp h
    exact (call_pushes hcall).labelled
  | getField object field ty =>
    obtain ⟨hget, rfl⟩ := Emit.lift_ok.mp h
    exact (getField_pushes hget).labelled
  | unary u =>
    obtain ⟨hunary, rfl⟩ := Emit.lift_ok.mp h
    exact (unary_pushes hunary).labelled
  | binary b =>
    change site.binary b n = _ at h
    unfold Site.binary at h
    simp only [Statement.isComparison]
    split at h
    · next hcomparison =>
      obtain ⟨rfl, jump, hjump, rfl⟩ := comparison_ok h
      rw [hcomparison]
      refine ⟨rfl, ?_⟩
      rw [labelsOf_append, (compareJump_jumps hjump).labelsOf]
      rfl
    · next hcomparison =>
      obtain ⟨harithmetic, rfl⟩ := Emit.lift_ok.mp h
      rw [Bool.eq_false_iff.mpr hcomparison]
      exact (arithmetic_pushes harithmetic).labelled
  | _ => exact absurd h (by simp [value])

theorem not_isComparison_of_increment? {dest : Element} {rhs : Statement} {increment : Nat × Int32}
    (h : site.increment? dest rhs = some increment) : rhs.isComparison = false := by
  unfold increment? at h
  split at h
  · next binary =>
    simp only [Option.bind_eq_bind, Option.bind_eq_some_iff] at h
    obtain ⟨register, -, amount, hamount, -⟩ := h
    unfold Binary.increment? at hamount
    simp only [Statement.isComparison]
    split at hamount
    · next hop => rw [hop]; rfl
    · next hop => rw [hop]; rfl
    · cases hamount
  · cases h

theorem assign_labelled {dest : Element} {rhs : Statement} {items : List Item}
    (h : site.assign dest rhs n = (.ok items, n')) :
    Labelled n rhs.isComparison.toNat items n' := by
  unfold assign at h
  cases hincrement : site.increment? dest rhs with
  | some increment =>
    rw [hincrement] at h
    obtain ⟨rfl, rfl⟩ := Emit.pure_ok.mp h
    rw [not_isComparison_of_increment? hincrement]
    exact (pushes_iinc hincrement).labelled
  | none =>
    rw [hincrement] at h
    simp only [Emit.bind_ok, Emit.lift_ok, Emit.pure_ok] at h
    obtain ⟨⟨before, store⟩, _, ⟨hplace, rfl⟩, stored, _, hvalue, rfl, rfl⟩ := h
    obtain ⟨below, hbefore, -⟩ := place_pushes hplace
    exact ((value_labelled hvalue).after hbefore).append_ops _

theorem branchTo_labelled {condition : Condition} {target : String} {items : List Item}
    (h : site.branchTo condition target n = (.ok items, n')) : Labelled n 0 items n' := by
  unfold branchTo at h
  split at h
  · simp only [Emit.bind_ok, Emit.lift_ok, Emit.pure_ok] at h
    obtain ⟨loaded, _, ⟨hload, rfl⟩, rfl, rfl⟩ := h
    exact (load_pushes hload).labelled.append_ops _
  · split at h
    · simp only [Emit.bind_ok, Emit.lift_ok, Emit.pure_ok] at h
      obtain ⟨loaded, _, ⟨hload, rfl⟩, rfl, rfl⟩ := h
      exact (load_pushes hload).labelled.append_ops _
    · exact absurd h (by simp)
  · split at h
    · obtain ⟨hjump, rfl⟩ := Emit.lift_ok.mp h
      exact (compareJump_jumps hjump).labelled
    · next notComparison =>
      simp only [Site.binary, notComparison, Bool.false_eq_true, if_false, Emit.bind_ok,
        Emit.lift_ok, Emit.pure_ok] at h
      obtain ⟨loaded, _, ⟨hload, rfl⟩, rfl, rfl⟩ := h
      exact (arithmetic_pushes hload).labelled.append_ops _

theorem unused_labelled {rhs : Statement} {items : List Item}
    (h : (do let pushed ← site.value rhs; pure (pushed ++ ops [.pop]) : Emit (List Item)) n
      = (.ok items, n')) : Labelled n rhs.isComparison.toNat items n' := by
  simp only [Emit.bind_ok, Emit.pure_ok] at h
  obtain ⟨pushed, _, hvalue, rfl, rfl⟩ := h
  exact (value_labelled hvalue).append_ops _

theorem statement_labelled {statement : Statement} {items : List Item}
    (h : site.statement statement n = (.ok items, n')) :
    Labelled n statement.drawsNumber.toNat items n' := by
  cases statement with
  | assign dest ty rhs => exact assign_labelled h
  | call c =>
    simp only [Site.statement, Emit.bind_ok, Emit.lift_ok, Emit.pure_ok] at h
    obtain ⟨called, _, ⟨hcall, rfl⟩, rfl, rfl⟩ := h
    have hcalled : Labelled n 0 called n := (call_pushes hcall).labelled
    split
    · exact hcalled
    · exact hcalled.append_ops _
  | goto label =>
    simp only [Site.statement, Emit.bind_ok, Emit.lift_ok, Emit.pure_ok] at h
    obtain ⟨target, _, ⟨-, rfl⟩, rfl, rfl⟩ := h
    exact ⟨rfl, rfl⟩
  | branch condition label =>
    simp only [Site.statement, Emit.bind_ok, Emit.lift_ok] at h
    obtain ⟨target, _, ⟨-, rfl⟩, hbranch⟩ := h
    exact branchTo_labelled hbranch
  | ret value? ty =>
    obtain ⟨hret, rfl⟩ := Emit.lift_ok.mp h
    obtain ⟨loaded, op, rfl, hloaded, -⟩ := ret_returns hret
    exact hloaded.labelled.append_ops _
  | putField object field value =>
    obtain ⟨hput, rfl⟩ := Emit.lift_ok.mp h
    exact (putField_pushes hput).labelled
  | getField object field ty => exact unused_labelled h
  | unary u => exact unused_labelled h
  | binary b => exact unused_labelled h
  | element e => exact unused_labelled h

theorem construction_labelled {construction : Construction} {items : List Item}
    (h : site.construction construction = .ok items) : Labelled n 0 items n := by
  unfold Site.construction at h
  simp only [ThreeAddress.bind_ok] at h
  obtain ⟨⟨before, store⟩, hplace, owner, -, invoked, hinvoked, h⟩ := h
  cases h
  obtain ⟨below, hbefore, -⟩ := place_pushes hplace
  obtain ⟨args, hargs, hinvoked⟩ := ThreeAddress.bind_ok.mp hinvoked
  cases hinvoked
  refine ⟨rfl, ?_⟩
  simp only [labelsOf_append, labelsOf_ops, hbefore.labelsOf, (loadAll_pushes hargs).labelsOf]
  rfl

end Site

-- ---------------------------------------------------------------------------
-- Bodies
-- ---------------------------------------------------------------------------

/-- How many numbers lowering draws for the instructions. -/
def numbersDrawn (insts : List Instruction) : Nat := insts.countP fun inst => inst.statement.drawsNumber

theorem countP_cons_toNat {α : Type} (p : α → Bool) (head : α) (rest : List α) :
    (head :: rest).countP p = (p head).toNat + rest.countP p := by
  rw [List.countP_cons, Nat.add_comm]
  cases p head <;> rfl

theorem numbersDrawn_cons (inst : Instruction) (rest : List Instruction) :
    numbersDrawn (inst :: rest) = inst.statement.drawsNumber.toNat + numbersDrawn rest :=
  countP_cons_toNat ..

theorem numbersDrawn_append (first second : List Instruction) :
    numbersDrawn (first ++ second) = numbersDrawn first + numbersDrawn second :=
  List.countP_append

def Chunk.drawsNumber : Chunk → Bool
  | .single inst => inst.statement.drawsNumber
  | .fused .. => false

-- Both instructions of a fused pair are calls, so no number is lost.
theorem Chunk.countP_drawsNumber (insts : List Instruction) :
    (ofInstructions insts).countP drawsNumber = numbersDrawn insts := by
  fun_induction ofInstructions insts with
  | case1 => rfl
  | case2 inst => rfl
  | case3 inst next rest construction hfused ih =>
    obtain ⟨-, ⟨ty, hinst⟩, hnext⟩ := Construction.source_of_of? hfused
    have hfirst : inst.statement.drawsNumber = false := by rw [hinst]; rfl
    have hsecond : next.statement.drawsNumber = false := by rw [hnext]; rfl
    rw [countP_cons_toNat, ih, numbersDrawn_cons, numbersDrawn_cons, hfirst, hsecond, Bool.toNat_false,
      Nat.zero_add, Nat.zero_add]
    exact Nat.zero_add _
  | case4 inst next rest _ ih =>
    rw [countP_cons_toNat, ih, numbersDrawn_cons inst]
    rfl

namespace Site

variable {site : Site} {n n' : Nat}

theorem chunk_labelled {chunk : Chunk} {items : List Item} (h : site.chunk chunk n = (.ok items, n')) :
    Labelled n chunk.drawsNumber.toNat items n' := by
  cases chunk with
  | single inst => exact statement_labelled h
  | fused inst construction =>
    obtain ⟨hitems, rfl⟩ := Emit.lift_ok.mp h
    exact construction_labelled hitems

theorem Emitted.labels_perm {chunks : List Chunk} {items : List Item}
    (h : site.Emitted n chunks items n') :
    n' = n + chunks.countP Chunk.drawsNumber ∧
      (labelsOf items).Perm
        (chunks.flatMap Chunk.labels ++ madeLabels n (chunks.countP Chunk.drawsNumber)) := by
  induction h with
  | nil n => exact ⟨rfl, .nil⟩
  | @cons n k n' chunk rest code others hcode _ ih =>
    obtain ⟨rfl, hlabels⟩ := chunk_labelled hcode
    obtain ⟨rfl, hrest⟩ := ih
    rw [countP_cons_toNat]
    refine ⟨Nat.add_assoc .., ?_⟩
    rw [labelsOf_append, labelsOf_append, labelsOf_map_label, hlabels, madeLabels_add,
      List.flatMap_cons, List.append_assoc, List.append_assoc]
    -- The labels made up for the chunk move behind those that the rest carries.
    refine List.Perm.append_left _ ?_
    exact (List.Perm.append_left _ hrest).trans (List.perm_append_comm_assoc ..)

theorem labelsOf_close {items body : List Item} (h : site.close items = .ok body) :
    labelsOf body = labelsOf items := by
  rcases close_ok h with ⟨-, rfl⟩ | ⟨-, rfl⟩
  · rfl
  · rw [labelsOf_append, labelsOf_ops, List.append_nil]

theorem listing_labels_perm {listing : MethodListing} (h : site.listing n = (.ok listing, n')) :
    n' = n + numbersDrawn site.method.instructions ∧
      (labelsOf listing.body).Perm (site.method.instructions.flatMap Instruction.labels ++
        madeLabels n (numbersDrawn site.method.instructions)) := by
  obtain ⟨items, hitems, hclose⟩ := body_ok.mp (listing_ok h).1
  rw [labelsOf_close hclose, ← Chunk.flatMap_labels, ← Chunk.countP_drawsNumber]
  exact hitems.labels_perm

/-- No label stands twice if no instruction carries one that is made up for the same body. -/
theorem listing_labels_nodup_iff (linked : site.method.Linked) {listing : MethodListing}
    (h : site.listing n = (.ok listing, n')) :
    (labelsOf listing.body).Nodup ↔
      ∀ inst ∈ site.method.instructions, ∀ label ∈ inst.labels, ¬ Drawn n n' label := by
  obtain ⟨rfl, hperm⟩ := listing_labels_perm h
  rw [hperm.nodup_iff, List.nodup_append]
  constructor
  · rintro ⟨-, -, disjoint⟩ inst hinst label hlabel hdrawn
    exact disjoint label (List.mem_flatMap.mpr ⟨inst, hinst, hlabel⟩) label
      (mem_madeLabels.mpr hdrawn) rfl
  · intro clear
    refine ⟨linked.labels_nodup, nodup_madeLabels _ _, ?_⟩
    rintro label hlabel _ hmade rfl
    obtain ⟨inst, hinst, hlabel⟩ := List.mem_flatMap.mp hlabel
    exact clear inst hinst label hlabel (mem_madeLabels.mp hmade)

end Site

-- ---------------------------------------------------------------------------
-- Classes
-- ---------------------------------------------------------------------------

namespace ClassUnit

variable {unit : ClassUnit} {n : Nat}

/-- No method of the row carries a label that is made up for a comparison in it. The numbers for these
are the ones after those that the methods before it draw. -/
def LabelsClear (n : Nat) (methods : List Method) : Prop :=
  ∀ before method after, methods = before ++ method :: after →
    ∀ inst ∈ method.instructions, ∀ label ∈ inst.labels,
      let first := n + numbersDrawn (before.flatMap Method.instructions)
      ¬ Site.Drawn first (first + numbersDrawn method.instructions) label

theorem labelsClear_cons {method : Method} {rest : List Method} :
    LabelsClear n (method :: rest) ↔
      (∀ inst ∈ method.instructions, ∀ label ∈ inst.labels,
        ¬ Site.Drawn n (n + numbersDrawn method.instructions) label) ∧
      LabelsClear (n + numbersDrawn method.instructions) rest := by
  have shift (before : List Method) :
      n + numbersDrawn ((method :: before).flatMap Method.instructions)
        = n + numbersDrawn method.instructions
          + numbersDrawn (before.flatMap Method.instructions) := by
    rw [List.flatMap_cons, numbersDrawn_append, Nat.add_assoc]
  constructor
  · intro clear
    refine ⟨clear [] method rest rfl, fun before other after heq => ?_⟩
    rw [← shift before]
    exact clear (method :: before) other after (congrArg (method :: ·) heq)
  · rintro ⟨first, others⟩ before other after heq
    cases before with
    | nil =>
      cases heq
      exact first
    | cons head before =>
      obtain ⟨rfl, hrest⟩ := List.cons.inj heq
      rw [shift before]
      exact others before other after hrest

theorem Listed.labels_nodup_iff {methods : List Method} {listings : List MethodListing}
    (h : unit.Listed n methods listings) (linked : ∀ method ∈ methods, method.Linked) :
    (∀ lowered ∈ listings, (labelsOf lowered.body).Nodup) ↔ LabelsClear n methods := by
  induction h with
  | nil n =>
    constructor
    · intro _ before method after heq
      exact absurd heq.symm (by simp)
    · exact fun _ lowered hlowered => absurd hlowered List.not_mem_nil
  | cons hlisting _ ih =>
    obtain ⟨hfirst, hothers⟩ := List.forall_mem_cons.mp linked
    rw [List.forall_mem_cons, labelsClear_cons, Site.listing_labels_nodup_iff hfirst hlisting,
      ih hothers, (Site.listing_labels_perm hlisting).1]

theorem lower_labels_nodup_iff
    (accepted : unit.Built ∨ ∃ file source, (read file source).1 = some unit)
    {listing : Listing} (h : unit.lower = .ok listing) :
    (∀ lowered ∈ listing.methods, (labelsOf lowered.body).Nodup) ↔ LabelsClear 0 unit.methods := by
  have built : unit.Built := by
    rcases accepted with built | ⟨file, source, hread⟩
    · exact built
    · exact built_of_read hread
  exact (listed_of_lower h).labels_nodup_iff built.linked

/-- The labels of each body that the class is lowered to. -/
def bodyLabels? (unit : ClassUnit) : Option (List (List String)) :=
  unit.lower.toOption.map fun listing => listing.methods.map fun lowered => labelsOf lowered.body

theorem exists_of_bodyLabels? {rows : List (List String)} (h : unit.bodyLabels? = some rows) :
    ∃ listing, unit.lower = .ok listing ∧
      listing.methods.map (fun lowered => labelsOf lowered.body) = rows := by
  obtain ⟨listing, hlisting, hrows⟩ := Option.map_eq_some_iff.mp h
  cases hlower : unit.lower with
  | error failure =>
    rw [hlower] at hlisting
    cases hlisting
  | ok lowered =>
    rw [hlower] at hlisting
    cases hlisting
    exact ⟨listing, rfl, hrows⟩

end ClassUnit

/-- Returns whether its argument is less than one, with a label on its way. -/
def lessDraft (label : String) : Draft :=
  let outcome : Element := .operand "b" .boolean
  let start := ((Draft.new "less" .boolean).addParam "x" .int32).label label
  (start.push (.assign outcome .boolean
    (.binary { op := .lt, left := .operand "x" .int32, right := .literal (.int 1) .int32 }))).push
    (.ret (some outcome) .boolean)

def lessMethod (label : String) : Method :=
  match (lessDraft label).build with
  | .ok method => method
  | .error _ => (lessDraft label).unlinked

def lessTwice : ClassUnit where
  name := "Twice"
  super? := none
  access := .pub
  isFinal := false
  imports := []
  fields := []
  methods := [lessMethod "cmp1_true", lessMethod "cmp0_true"]

/-- Each method has a label for the number that the other one draws. -/
theorem lower_labels_nodup_iff_twice :
    lessTwice.Built ∧ ∃ listing, lessTwice.lower = .ok listing ∧
      listing.methods.map (fun lowered => labelsOf lowered.body)
        = [["cmp1_true", "cmp0_true", "cmp0_end"], ["cmp0_true", "cmp1_true", "cmp1_end"]] ∧
      ClassUnit.LabelsClear 0 lessTwice.methods := by
  have built : lessTwice.Built := by
    intro method hmethod
    simp only [lessTwice, List.mem_cons, List.not_mem_nil, or_false] at hmethod
    rcases hmethod with rfl | rfl
    · exact ⟨lessDraft "cmp1_true", rfl⟩
    · exact ⟨lessDraft "cmp0_true", rfl⟩
  have rows : lessTwice.bodyLabels?
      = some [["cmp1_true", "cmp0_true", "cmp0_end"], ["cmp0_true", "cmp1_true", "cmp1_end"]] := by
    decide +kernel
  obtain ⟨listing, hlower, hrows⟩ := ClassUnit.exists_of_bodyLabels? rows
  have nodup : ∀ lowered ∈ listing.methods, (labelsOf lowered.body).Nodup := by
    rw [← List.forall_mem_map (P := List.Nodup), hrows]
    decide
  exact ⟨built, listing, hlower, hrows,
    (ClassUnit.lower_labels_nodup_iff (.inl built) hlower).mp nodup⟩

def clashText : String :=
  "Clash \x7b
.method public static less(x.i32).bool \x7b
cmp0_true:
b.bool :=.bool $0.x.i32 <.bool 1.i32;
ret.bool b.bool;
\x7d
\x7d"

/-- The text has one comparison, which gets the number of the label before it. -/
theorem lower_labels_clash :
    ∃ unit listing, (read 0 clashText).1 = some unit ∧ unit.lower = .ok listing ∧
      ¬ ∀ lowered ∈ listing.methods, (labelsOf lowered.body).Nodup := by
  have found : (read 0 clashText).1.bind ClassUnit.bodyLabels?
      = some [["cmp0_true", "cmp0_true", "cmp0_end"]] := by
    decide +kernel
  obtain ⟨unit, hread, rows⟩ := Option.bind_eq_some_iff.mp found
  obtain ⟨listing, hlower, hrows⟩ := ClassUnit.exists_of_bodyLabels? rows
  refine ⟨unit, listing, hread, hlower, ?_⟩
  rw [← List.forall_mem_map (P := List.Nodup), hrows]
  decide

end ThreeAddress
