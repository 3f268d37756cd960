import ThreeAddress.Proofs.Drift
import ThreeAddress.Proofs.UniqueLabels

/-!
# Statements and the depth of the stack

`Moves` is one step of control through a body, with the depths before and after it. The main statement,
`lower_balanced`, follows control through the items of one chunk, from where it enters them to where it
leaves them, by whatever way: the depth has then changed by `Chunk.drift`. So all statements are balanced
but for the three forms that have a drift.

What a chunk does inside is told by a level for each of its items, which is the depth there less the
depth at its start. `Levels` finds these from top to bottom, given the levels at the labels.
-/

namespace ThreeAddress

/-- Control goes from one item to another, and the depth of the stack from one number to another. -/
inductive Moves (body : List Item) : Nat → Nat → Nat → Nat → Prop
  | label {index depth : Nat} {label : String} : body[index]? = some (.label label) →
    Moves body index depth (index + 1) depth
  | next {index depth : Nat} {op : StackOp} : body[index]? = some (.op op) →
    op.isTerminator = false → op.pops ≤ depth →
    Moves body index depth (index + 1) (depth - op.pops + op.pushes)
  | jump {index depth target : Nat} {op : StackOp} {label : String} : body[index]? = some (.op op) →
    op.target? = some label → op.pops ≤ depth → body[target]? = some (.label label) →
    Moves body index depth target (depth - op.pops + op.pushes)

/-- The item is one of those from `first` up to before `last`. -/
def Inside (first last index : Nat) : Prop := first ≤ index ∧ index < last

/-- Control can come from outside to the item: it is the first one, or a label that is jumped to. -/
def Enters (body : List Item) (first last index : Nat) : Prop :=
  Inside first last index ∧ (index = first ∨ ∃ source op label, ¬ Inside first last source ∧
    body[source]? = some (.op op) ∧ op.target? = some label ∧ body[index]? = some (.label label))

/-- Control goes from an item inside to one outside, and until then stays inside. -/
inductive Leaves (body : List Item) (first last : Nat) : Nat → Nat → Nat → Nat → Prop
  | out {index depth index' depth' : Nat} : Inside first last index →
    Moves body index depth index' depth' → ¬ Inside first last index' →
    Leaves body first last index depth index' depth'
  | stay {index depth between depth' index'' depth'' : Nat} : Inside first last index →
    Moves body index depth between depth' → Leaves body first last between depth' index'' depth'' →
    Leaves body first last index depth index'' depth''

-- ---------------------------------------------------------------------------
-- Levels
-- ---------------------------------------------------------------------------

/-- The level before the items and the one behind them, which is none where control does not come from
above. Jumps agree with the levels at labels. -/
inductive Levels (levelOf : String → Int) : Option Int → List Item → Option Int → Prop
  | nil (level? : Option Int) : Levels levelOf level? [] level?
  | label {level? out : Option Int} {label : String} {rest : List Item} :
    (∀ level, level? = some level → level = levelOf label) →
    Levels levelOf (some (levelOf label)) rest out → Levels levelOf level? (.label label :: rest) out
  | op {level : Int} {out : Option Int} {op : StackOp} {rest : List Item} :
    (∀ label, op.target? = some label → levelOf label = level + op.net) →
    Levels levelOf (if op.isTerminator then none else some (level + op.net)) rest out →
    Levels levelOf (some level) (.op op :: rest) out

variable {levelOf : String → Int}

theorem Levels.append {first second : List Item} {level? middle out : Option Int}
    (h : Levels levelOf level? first middle) (h' : Levels levelOf middle second out) :
    Levels levelOf level? (first ++ second) out := by
  induction h with
  | nil => exact h'
  | label hlevel _ ih => exact .label hlevel (ih h')
  | op htarget _ ih => exact .op htarget (ih h')

theorem Levels.exists_drop {items : List Item} {level? out : Option Int}
    (h : Levels levelOf level? items out) (index : Nat) :
    ∃ middle, Levels levelOf middle (items.drop index) out := by
  induction h generalizing index with
  | nil level? => exact ⟨level?, by simpa using .nil level?⟩
  | label hlevel hrest ih =>
    cases index with
    | zero => exact ⟨_, .label hlevel hrest⟩
    | succ index => exact ih index
  | op htarget hrest ih =>
    cases index with
    | zero => exact ⟨_, .op htarget hrest⟩
    | succ index => exact ih index

theorem levels_ops {row : List StackOp} (plain : ∀ op ∈ row, op.Plain) (level : Int) :
    Levels levelOf (some level) (ops row) (some (level + netOf row)) := by
  induction row generalizing level with
  | nil => rw [netOf, Int.add_zero]; exact .nil _
  | cons op rest ih =>
    obtain ⟨⟨htarget, hgoes⟩, hrest⟩ := List.forall_mem_cons.mp plain
    refine .op (fun label hlabel => ?_) ?_
    · cases htarget.symm.trans hlabel
    · rw [hgoes, netOf, ← Int.add_assoc]
      exact ih hrest (level + op.net)

theorem levels_labels {labels : List String} (h : ∀ label ∈ labels, levelOf label = 0) :
    Levels levelOf (some 0) (labels.map .label) (some 0) := by
  induction labels with
  | nil => exact .nil _
  | cons label rest ih =>
    obtain ⟨hlabel, hrest⟩ := List.forall_mem_cons.mp h
    refine .label (fun level hlevel => ?_) (hlabel ▸ ih hrest)
    cases hlevel
    exact hlabel.symm

/-- A label starts at its own level, wherever control comes from. -/
theorem Levels.at_label {items : List Item} {level? out : Option Int} {index : Nat} {label : String}
    (h : Levels levelOf level? items out) (hlabel : items[index]? = some (.label label)) :
    Levels levelOf (some (levelOf label)) (items.drop index) out := by
  obtain ⟨hindex, hitem⟩ := List.getElem?_eq_some_iff.mp hlabel
  obtain ⟨middle, hdrop⟩ := h.exists_drop index
  rw [List.drop_eq_getElem_cons hindex, hitem] at hdrop ⊢
  cases hdrop with
  | label _ hrest => exact .label (fun _ heq => (Option.some.inj heq).symm) hrest

-- ---------------------------------------------------------------------------
-- Paths through a part of a body
-- ---------------------------------------------------------------------------

section

variable {before items after : List Item} {out : Option Int} {drift : Int}

theorem getElem?_of_inside {index : Nat} (h : index < items.length) :
    (before ++ items ++ after)[before.length + index]? = items[index]? := by
  rw [List.append_assoc, List.getElem?_append_right (Nat.le_add_right _ _), Nat.add_sub_cancel_left,
    List.getElem?_append_left h]

/-- An item of the body that is not one of the part. -/
theorem mem_outside {index : Nat} {item : Item}
    (houtside : ¬ Inside before.length (before.length + items.length) index)
    (h : (before ++ items ++ after)[index]? = some item) : item ∈ before ∨ item ∈ after := by
  by_cases hbefore : index < before.length
  · rw [List.append_assoc, List.getElem?_append_left hbefore] at h
    exact .inl (List.mem_of_getElem? h)
  · have hlast : (before ++ items).length ≤ index := by
      rw [List.length_append]
      exact Nat.not_lt.mp fun hlt => houtside ⟨Nat.not_lt.mp hbefore, hlt⟩
    rw [List.getElem?_append_right hlast] at h
    exact .inr (List.mem_of_getElem? h)

theorem not_mem_of_outside (unique : (labelsOf (before ++ items ++ after)).Nodup) {label : String}
    (h : label ∈ labelsOf before ∨ label ∈ labelsOf after) : label ∉ labelsOf items := by
  rw [labelsOf_append, labelsOf_append] at unique
  obtain ⟨hfirst, -, hbehind⟩ := List.nodup_append.mp unique
  obtain ⟨-, -, hbetween⟩ := List.nodup_append.mp hfirst
  intro hmem
  rcases h with h | h
  · exact hbetween label h label hmem rfl
  · exact hbehind label (List.mem_append_right _ hmem) label h rfl

/-- What the levels of a part say about control that leaves it. -/
structure Drifts (levelOf : String → Int) (items : List Item) (out : Option Int) (drift : Int) :
    Prop where
  levels : Levels levelOf (some 0) items out
  falls : ∀ level, out = some level → level = drift
  jumps : ∀ op label, .op op ∈ items → op.target? = some label → label ∉ labelsOf items →
    levelOf label = drift

/-- Control is at an item of the part, at the level there, or it has left the part with the drift. -/
def Tracked (levelOf : String → Int) (before items : List Item) (out : Option Int) (drift start : Int)
    (index depth : Nat) : Prop :=
  (∃ next level, index = before.length + next ∧ next < items.length ∧
    Levels levelOf (some level) (items.drop next) out ∧ (depth : Int) = start + level) ∨
  ¬ Inside before.length (before.length + items.length) index ∧ (depth : Int) = start + drift

-- Behind the last item there is no level but the one that control falls out with.
theorem Drifts.tracked_next (h : Drifts levelOf items out drift) {index depth : Nat}
    {start level : Int} (hlevel : Levels levelOf (some level) (items.drop (index + 1)) out)
    (hdepth : (depth : Int) = start + level) :
    Tracked levelOf before items out drift start (before.length + index + 1) depth := by
  by_cases hlast : index + 1 < items.length
  · exact .inl ⟨index + 1, level, rfl, hlast, hlevel, hdepth⟩
  · rw [List.drop_of_length_le (Nat.not_lt.mp hlast)] at hlevel
    cases hlevel
    refine .inr ⟨fun hinside => ?_, h.falls level rfl ▸ hdepth⟩
    have := hinside.2
    omega

theorem Drifts.tracked_of_moves (h : Drifts levelOf items out drift)
    (unique : (labelsOf (before ++ items ++ after)).Nodup) {index depth index' depth' : Nat}
    {start level : Int} (hindex : index < items.length)
    (hlevel : Levels levelOf (some level) (items.drop index) out) (hdepth : (depth : Int) = start + level)
    (hmove : Moves (before ++ items ++ after) (before.length + index) depth index' depth') :
    Tracked levelOf before items out drift start index' depth' := by
  have hitem := List.drop_eq_getElem_cons hindex
  rw [hitem] at hlevel
  cases hmove with
  | label hlabel =>
    rw [getElem?_of_inside hindex, List.getElem?_eq_getElem hindex] at hlabel
    rw [Option.some.inj hlabel] at hlevel
    cases hlevel with
    | label hat hrest => exact h.tracked_next hrest (hat level rfl ▸ hdepth)
  | @next op hop hgoes hpops =>
    rw [getElem?_of_inside hindex, List.getElem?_eq_getElem hindex] at hop
    rw [Option.some.inj hop] at hlevel
    cases hlevel with
    | op _ hrest =>
      rw [hgoes] at hrest
      refine h.tracked_next hrest ?_
      simp only [StackOp.net]
      omega
  | @jump _ op label hop htarget hpops hlabel =>
    rw [getElem?_of_inside hindex, List.getElem?_eq_getElem hindex] at hop
    rw [Option.some.inj hop] at hlevel
    have hnet : ((depth - op.pops + op.pushes : Nat) : Int) = start + levelOf label := by
      cases hlevel with
      | op hjump _ =>
        rw [hjump label htarget, StackOp.net]
        omega
    by_cases hinside : Inside before.length (before.length + items.length) index'
    · obtain ⟨next, rfl⟩ := Nat.exists_eq_add_of_le hinside.1
      have hnext : next < items.length := Nat.add_lt_add_iff_left.mp hinside.2
      rw [getElem?_of_inside hnext] at hlabel
      exact .inl ⟨next, levelOf label, rfl, hnext, h.levels.at_label hlabel, hnet⟩
    · refine .inr ⟨hinside, ?_⟩
      have hmem := (mem_outside hinside hlabel).imp mem_labelsOf.mpr mem_labelsOf.mpr
      have hmemOp : .op op ∈ items := Option.some.inj hop ▸ List.getElem_mem hindex
      rw [← h.jumps op label hmemOp htarget (not_mem_of_outside unique hmem)]
      exact hnet

-- By induction on the path: at each of its items the depth is that at the start and the level there.
theorem Drifts.leaves (h : Drifts levelOf items out drift)
    (unique : (labelsOf (before ++ items ++ after)).Nodup) {index depth index' depth' : Nat}
    {start level : Int}
    (hpath : Leaves (before ++ items ++ after) before.length (before.length + items.length)
      (before.length + index) depth index' depth') (hindex : index < items.length)
    (hlevel : Levels levelOf (some level) (items.drop index) out)
    (hdepth : (depth : Int) = start + level) : (depth' : Int) = start + drift := by
  generalize hplace : before.length + index = place at hpath
  induction hpath generalizing index level with
  | out _ hmove houtside =>
    subst hplace
    rcases h.tracked_of_moves unique hindex hlevel hdepth hmove with ⟨next, _, rfl, hnext, -⟩ | ⟨-, hdrift⟩
    · exact absurd ⟨Nat.le_add_right _ _, Nat.add_lt_add_left hnext _⟩ houtside
    · exact hdrift
  | stay _ hmove hrest ih =>
    subst hplace
    rcases h.tracked_of_moves unique hindex hlevel hdepth hmove with
      ⟨next, level', rfl, hnext, hlevel', hdepth'⟩ | ⟨houtside, -⟩
    · exact ih hnext hlevel' hdepth' rfl
    · cases hrest with
      | out hinside => exact absurd hinside houtside
      | stay hinside => exact absurd hinside houtside

end

-- ---------------------------------------------------------------------------
-- Chunks
-- ---------------------------------------------------------------------------

namespace Site

variable {site : Site} {n n' : Nat}

theorem Pushes.levels {items : List Item} {count : Nat} (h : site.Pushes items count) (level : Int) :
    Levels levelOf (some level) items (some (level + count)) := by
  obtain ⟨row, rfl, plain, hnet⟩ := h.shifts
  exact hnet ▸ levels_ops plain level

theorem Jumps.levels {items : List Item} {label : String} {always : Bool} {level : Int}
    (h : site.Jumps items label always) (hlabel : levelOf label = level) :
    Levels levelOf (some level) items (if always then none else some level) := by
  obtain ⟨loaded, op, rfl, hloaded, htarget, halways, hpushes, -⟩ := h
  have hnet : level + op.pops + op.net = level := by
    rw [StackOp.net, hpushes]
    omega
  refine (hloaded.levels level).append (.op (fun other hother => ?_) ?_)
  · cases htarget.symm.trans hother
    rw [hnet, hlabel]
  · rw [halways, hnet]
    exact .nil _

theorem Returns.levels {items : List Item} (h : site.Returns items) :
    Levels levelOf (some 0) items none := by
  obtain ⟨loaded, op, rfl, hloaded, htarget, hends, -⟩ := h
  refine (hloaded.levels 0).append (.op (fun other hother => ?_) ?_)
  · cases htarget.symm.trans hother
  · rw [hends]
    exact .nil _

/-- The levels at the labels of a comparison: where it holds the value is still to be pushed. -/
def comparisonLevel (number below : Nat) (label : String) : Int :=
  if label = holdsLabel number then below else if label = endLabel number then below + 1 else 0

theorem levels_verdict (number below : Nat) :
    Levels (comparisonLevel number below) (some below) (verdict number) (some (below + 1)) := by
  have hholds : comparisonLevel number below (holdsLabel number) = below := if_pos rfl
  have hend : comparisonLevel number below (endLabel number) = below + 1 := by
    rw [comparisonLevel, if_neg (holdsLabel_ne_endLabel number number).symm, if_pos rfl]
  refine .op (fun _ h => nomatch h) (.op (fun label hlabel => ?_) (.label (fun _ h => nomatch h)
    (.op (fun _ h => nomatch h) (.label (fun level hlevel => ?_) ?_))))
  · cases hlabel
    rw [hend]
    rfl
  · cases hlevel
    rw [hholds, hend]
    rfl
  · rw [hend]
    exact .nil _

/-- The code of a statement has levels, which are zero at labels from elsewhere. -/
theorem Code.levels {items : List Item} (h : site.Code n items n') :
    ∃ levelOf out, Levels levelOf (some 0) items out ∧ (∀ level, out = some level → level = 0) ∧
      ∀ label, ¬ Drawn n n' label → levelOf label = 0 := by
  cases h with
  | straight hpushes => exact ⟨fun _ => 0, _, hpushes.levels 0, by simp, fun _ _ => rfl⟩
  | @jump _ _ always hjumps _ =>
    refine ⟨fun _ => 0, _, hjumps.levels rfl, ?_, fun _ _ => rfl⟩
    cases always <;> simp
  | leave hreturns => exact ⟨fun _ => 0, _, hreturns.levels, by simp, fun _ _ => rfl⟩
  | @comparison below before jump store hbefore hjumps plain hpops hpushes _ =>
    have hpushed : Levels (comparisonLevel n below) (some 0) before (some below) := by
      simpa using hbefore.levels 0
    have hjump : Levels (comparisonLevel n below) (some below) jump (some below) :=
      hjumps.levels (if_pos rfl)
    have hstore : Levels (comparisonLevel n below) (some (below + 1)) (ops [store]) (some 0) := by
      have hnet : (below + 1 : Int) + netOf [store] = 0 := by
        rw [netOf_single, StackOp.net, hpops, hpushes]
        omega
      rw [← hnet]
      exact levels_ops (by simpa using plain) _
    refine ⟨comparisonLevel n below, some 0,
      (hpushed.append (hjump.append (levels_verdict n below))).append hstore, by simp, ?_⟩
    intro label hnot
    have hholds : label ≠ holdsLabel n := fun heq =>
      hnot ⟨n, Nat.le_refl n, Nat.lt_succ_self n, .inl heq⟩
    have hend : label ≠ endLabel n := fun heq =>
      hnot ⟨n, Nat.le_refl n, Nat.lt_succ_self n, .inr heq⟩
    rw [comparisonLevel, if_neg hholds, if_neg hend]

/-- The items of a chunk with the labels in front of them. -/
def chunkItems (chunk : Chunk) (code : List Item) : List Item := chunk.labels.map .label ++ code

theorem chunk_drifts (linked : site.method.Linked) {chunk : Chunk} {code : List Item}
    (hmem : chunk ∈ Chunk.ofInstructions site.method.instructions)
    (h : site.chunk chunk n = (.ok code, n'))
    (clear : ∀ inst ∈ site.method.instructions, ∀ label ∈ inst.labels, ¬ Drawn n n' label) :
    ∃ levelOf out, Drifts levelOf (chunkItems chunk code) out chunk.drift ∧
      ∀ label id, site.method.label? label = some id → levelOf label = 0 := by
  have carried : ∀ label id, site.method.label? label = some id → ¬ Drawn n n' label := by
    intro label id hid
    obtain ⟨inst, hinst, hlabel⟩ := (linked.label?_iff label id).mp hid
    exact clear inst (Method.mem_of_instruction? hinst) label hlabel
  have hlabels : ∀ label ∈ chunk.labels, ¬ Drawn n n' label := by
    intro label hlabel
    have hflat : label ∈ (Chunk.ofInstructions site.method.instructions).flatMap Chunk.labels :=
      List.mem_flatMap.mpr ⟨chunk, hmem, hlabel⟩
    rw [Chunk.flatMap_labels] at hflat
    obtain ⟨inst, hinst, hlabel⟩ := List.mem_flatMap.mp hflat
    exact clear inst hinst label hlabel
  rcases chunk_shape linked hmem h with ⟨hcode, hdrift⟩ | ⟨-, row, rfl, plain, hnet⟩
  · obtain ⟨levelOf, out, hlevels, hfalls, hzero⟩ := hcode.levels
    refine ⟨levelOf, out, ⟨?_, fun level hlevel => ?_, fun op label hop htarget hother => ?_⟩,
      fun label id hid => hzero label (carried label id hid)⟩
    · exact (levels_labels fun label hlabel => hzero label (hlabels label hlabel)).append hlevels
    · rw [hdrift]
      exact hfalls level hlevel
    · have hopCode : .op op ∈ code := by simpa [chunkItems] using hop
      rw [hdrift]
      rcases hcode.target hopCode htarget with ⟨id, hid⟩ | hown
      · exact hzero label (carried label id hid)
      · refine absurd ?_ hother
        rw [chunkItems, labelsOf_append]
        exact List.mem_append_right _ hown
  · refine ⟨fun _ => 0, some (0 + netOf row), ⟨?_, fun level hlevel => ?_, ?_⟩, fun _ _ _ => rfl⟩
    · exact (levels_labels fun _ _ => rfl).append (levels_ops plain 0)
    · cases hlevel
      rw [Int.zero_add, hnet]
    · intro op label hop htarget
      have hopRow : op ∈ row := by simpa [chunkItems, mem_ops] using hop
      cases (plain op hopRow).1.symm.trans htarget

/-- The items of the chunk behind `prior` stand in the body from `first` up to before `last`. -/
def Stands (site : Site) (prior : List Chunk) (chunk : Chunk) (body : List Item) (first last : Nat) :
    Prop :=
  ∃ n k k' before code after, site.Emitted n prior before k ∧ site.chunk chunk k = (.ok code, k') ∧
    body = before ++ chunkItems chunk code ++ after ∧ first = before.length ∧
    last = first + (chunkItems chunk code).length

theorem Emitted.le {chunks : List Chunk} {items : List Item} (h : site.Emitted n chunks items n') :
    n ≤ n' := by
  rw [h.labels_perm.1]
  exact Nat.le_add_right _ _

theorem listing_balanced (linked : site.method.Linked) {lowered : MethodListing}
    (h : site.listing n = (.ok lowered, n')) (unique : (labelsOf lowered.body).Nodup)
    {prior later : List Chunk} {chunk : Chunk}
    (hchunks : Chunk.ofInstructions site.method.instructions = prior ++ chunk :: later) :
    ∃ first last, site.Stands prior chunk lowered.body first last ∧
      ∀ index depth index' depth', Enters lowered.body first last index →
        Leaves lowered.body first last index depth index' depth' →
        (depth' : Int) = depth + chunk.drift := by
  obtain ⟨items, hitems, hclose⟩ := body_ok.mp (listing_ok h).1
  have clear := (listing_labels_nodup_iff linked h).mp unique
  have hsub : ∀ other ∈ prior ++ chunk :: later,
      other ∈ Chunk.ofInstructions site.method.instructions := fun _ hother => hchunks ▸ hother
  rw [hchunks] at hitems
  obtain ⟨before, _, k, rfl, hprior, hrest⟩ := hitems.split
  obtain ⟨code, k', others, hcode, hlater, rfl⟩ := emitted_cons.mp hrest
  obtain ⟨levelOf, out, hdrifts, hzero⟩ := chunk_drifts linked
    (hsub chunk (List.mem_append_right _ List.mem_cons_self)) hcode
    fun inst hinst label hlabel hdrawn =>
      clear inst hinst label hlabel (hdrawn.mono hprior.le hlater.le)
  obtain ⟨ending, hending, hbody⟩ : ∃ ending, (∀ op, .op op ∈ ending → op.target? = none) ∧
      lowered.body = before ++ chunkItems chunk code ++ (others ++ ending) := by
    rcases close_ok hclose with ⟨-, heq⟩ | ⟨-, heq⟩
    · refine ⟨[], fun _ hop => absurd hop List.not_mem_nil, ?_⟩
      rw [heq, chunkItems]
      simp only [List.append_assoc, List.append_nil]
    · refine ⟨ops [.ret], fun op hop => ?_, ?_⟩
      · rw [List.mem_singleton.mp (mem_ops.mp hop)]
        rfl
      · rw [heq, chunkItems]
        simp only [List.append_assoc]
  rw [hbody] at unique ⊢
  refine ⟨_, _, ⟨n, k, k', before, code, _, hprior, hcode, rfl, rfl, rfl⟩, ?_⟩
  rintro index depth index' depth' ⟨hinside, hentry⟩ hpath
  obtain ⟨place, rfl⟩ := Nat.exists_eq_add_of_le hinside.1
  have hplace : place < (chunkItems chunk code).length := Nat.add_lt_add_iff_left.mp hinside.2
  have hdepth : (depth : Int) = depth + 0 := (Int.add_zero _).symm
  rcases hentry with hfirst | ⟨source, op, label, houtside, hop, htarget, hlabel⟩
  · obtain rfl : place = 0 := by omega
    exact hdrifts.leaves unique hpath hplace hdrifts.levels hdepth
  · -- The label is not made up for this chunk, as only the chunk itself jumps to such a label.
    have hown : label ∈ labelsOf (chunkItems chunk code) := by
      rw [getElem?_of_inside hplace] at hlabel
      exact mem_labelsOf.mpr (List.mem_of_getElem? hlabel)
    have hmethod : ∃ id, site.method.label? label = some id := by
      rcases mem_outside houtside hop with hop | hop
      · refine (hprior.target linked (fun _ hmem => hsub _ (List.mem_append_left _ hmem)) hop
          htarget).resolve_right fun hmem => ?_
        exact not_mem_of_outside unique (.inl hmem) hown
      · rcases List.mem_append.mp hop with hop | hop
        · refine (hlater.target linked (fun _ hmem => hsub _ (List.mem_append_right _
            (List.mem_cons_of_mem _ hmem))) hop htarget).resolve_right fun hmem => ?_
          refine not_mem_of_outside unique (.inr ?_) hown
          rw [labelsOf_append]
          exact List.mem_append_left _ hmem
        · cases (hending op hop).symm.trans htarget
    obtain ⟨id, hid⟩ := hmethod
    rw [getElem?_of_inside hplace] at hlabel
    have hlevel := hdrifts.levels.at_label hlabel
    rw [hzero label id hid] at hlevel
    exact hdrifts.leaves unique hpath hplace hlevel hdepth

end Site

namespace ClassUnit

variable {unit : ClassUnit} {n : Nat}

theorem Listed.getElem? {methods : List Method} {listings : List MethodListing}
    (h : unit.Listed n methods listings) {index : Nat} {method : Method}
    (hmethod : methods[index]? = some method) :
    ∃ lowered k k', listings[index]? = some lowered ∧
      Site.listing { unit, method } k = (.ok lowered, k') := by
  induction h generalizing index with
  | nil n => cases hmethod
  | cons hlisting _ ih =>
    cases index with
    | zero =>
      cases hmethod
      exact ⟨_, _, _, rfl, hlisting⟩
    | succ index => exact ih hmethod

/-- How a body in the listing of a class is found by evaluation. -/
theorem exists_lowered {index : Nat} {body : List Item}
    (h : (unit.lower.toOption.bind fun listing => listing.methods[index]?).map MethodListing.body
      = some body) :
    ∃ listing lowered, unit.lower = .ok listing ∧ listing.methods[index]? = some lowered ∧
      lowered.body = body := by
  obtain ⟨lowered, hlowered, hbody⟩ := Option.map_eq_some_iff.mp h
  obtain ⟨listing, hlisting, hlowered⟩ := Option.bind_eq_some_iff.mp hlowered
  cases hlower : unit.lower with
  | error failure =>
    rw [hlower] at hlisting
    cases hlisting
  | ok other =>
    rw [hlower] at hlisting
    cases hlisting
    exact ⟨listing, lowered, rfl, hlowered, hbody⟩

theorem lower_balanced {file : Nat} {source : String} {listing : Listing}
    (hread : (read file source).1 = some unit) (h : unit.lower = .ok listing) :
    ∀ (index : Nat) (method : Method), unit.methods[index]? = some method →
      ∃ lowered, listing.methods[index]? = some lowered ∧
        ((labelsOf lowered.body).Nodup →
          ∀ prior chunk later, Chunk.ofInstructions method.instructions = prior ++ chunk :: later →
            ∃ first last, Site.Stands { unit, method } prior chunk lowered.body first last ∧
              ∀ index depth index' depth', Enters lowered.body first last index →
                Leaves lowered.body first last index depth index' depth' →
                (depth' : Int) = depth + chunk.drift) := by
  intro index method hmethod
  obtain ⟨lowered, k, k', hlowered, hlisting⟩ := (listed_of_lower h).getElem? hmethod
  have linked := (built_of_read hread).linked method (List.mem_of_getElem? hmethod)
  exact ⟨lowered, hlowered, fun unique prior chunk later hchunks =>
    @Site.listing_balanced { unit, method } k k' linked lowered hlisting unique prior later chunk hchunks⟩

end ClassUnit

def measureText : String :=
  "Measure \x7b
.method public static run(a.array.i32).V \x7b
arraylength(a.array.i32).V;
b.bool :=.bool 0.i32 <.bool 1.i32;
ret.V;
\x7d
\x7d"

/-- The array is asked for its length, which is said to be nothing. -/
def measureLength : Statement :=
  .call {
    invocation := .arrayLength, target := .operand "a" (.array .int32), method? := none, args := []
    ret := .void }

def measureDraft : Draft :=
  let start := { Draft.new "run" .void with isStatic := true }.addParam "a" (.array .int32)
  ((start.push measureLength).push (.assign (.operand "b" .boolean) .boolean
    (.binary { op := .lt, left := .literal (.int 0) .int32, right := .literal (.int 1) .int32 }))).push
    (.ret none .void)

def measureMethod : Method :=
  match measureDraft.build with
  | .ok method => method
  | .error _ => measureDraft.unlinked

def measureUnit : ClassUnit where
  name := "Measure"
  super? := none
  access := .pub
  isFinal := false
  imports := []
  fields := []
  methods := [measureMethod]

def measureBody : List Item :=
  ops [.aload 0, .arrayLength, .iconst 1, .ifZero .gt "cmp0_true", .iconst 0, .goto "cmp0_end"] ++
    .label "cmp0_true" :: .op (.iconst 1) :: .label "cmp0_end" :: ops [.istore 1, .ret]

theorem read_measureText : (read 0 measureText).1 = some measureUnit := by decide +kernel

theorem lower_measureUnit : ∃ listing lowered, measureUnit.lower = .ok listing ∧
    listing.methods[0]? = some lowered ∧ lowered.body = measureBody := by
  exact ClassUnit.exists_lowered (by decide +kernel)

/-- The statements of the text have drifts of one, zero and zero. -/
theorem lower_balanced_measure :
    (read 0 measureText).1 = some measureUnit ∧ ∃ listing lowered, measureUnit.lower = .ok listing ∧
      listing.methods[0]? = some lowered ∧ lowered.body = measureBody ∧
      (Chunk.ofInstructions measureMethod.instructions).map Chunk.drift = [1, 0, 0] ∧
      ∀ prior chunk later, Chunk.ofInstructions measureMethod.instructions = prior ++ chunk :: later →
        ∃ first last,
          Site.Stands { unit := measureUnit, method := measureMethod } prior chunk measureBody first last ∧
          ∀ index depth index' depth', Enters measureBody first last index →
            Leaves measureBody first last index depth index' depth' →
            (depth' : Int) = depth + chunk.drift := by
  obtain ⟨listing, lowered, hlower, hlowered, hbody⟩ := lower_measureUnit
  refine ⟨read_measureText, listing, lowered, hlower, hlowered, hbody, by decide +kernel, ?_⟩
  obtain ⟨found, hfound, hbalanced⟩ :=
    ClassUnit.lower_balanced read_measureText hlower 0 measureMethod rfl
  cases hlowered.symm.trans hfound
  have unique : (labelsOf lowered.body).Nodup := by
    rw [hbody]
    decide
  rw [hbody] at hbalanced unique
  exact hbalanced unique

/-- Control enters the code of the first statement with nothing on the stack and leaves a value there. -/
theorem lower_unbalanced :
    ∃ unit listing method lowered chunk later first last,
      (read 0 measureText).1 = some unit ∧ unit.lower = .ok listing ∧
      unit.methods[0]? = some method ∧ listing.methods[0]? = some lowered ∧
      (labelsOf lowered.body).Nodup ∧
      Chunk.ofInstructions method.instructions = [] ++ chunk :: later ∧
      Site.Stands { unit, method } [] chunk lowered.body first last ∧
      Enters lowered.body first last first ∧ Leaves lowered.body first last first 0 last 1 := by
  obtain ⟨listing, lowered, hlower, hlowered, hbody⟩ := lower_measureUnit
  refine ⟨measureUnit, listing, measureMethod, lowered, _, _, 0, 2, read_measureText, hlower, rfl,
    hlowered, ?_, rfl, ?_⟩
  · rw [hbody]
    decide
  rw [hbody]
  refine ⟨⟨0, 0, 0, [], _, _, .nil 0, rfl, rfl, rfl, rfl⟩, ⟨⟨Nat.le_refl 0, Nat.two_pos⟩, .inl rfl⟩, ?_⟩
  have load : Moves measureBody 0 0 1 1 :=
    @Moves.next measureBody 0 0 (.aload 0) rfl rfl (Nat.le_refl 0)
  have length : Moves measureBody 1 1 2 1 :=
    @Moves.next measureBody 1 1 .arrayLength rfl rfl (Nat.le_refl 1)
  exact .stay ⟨Nat.le_refl 0, Nat.two_pos⟩ load
    (.out ⟨Nat.zero_le 1, Nat.one_lt_two⟩ length fun inside => absurd inside.2 (Nat.lt_irrefl 2))

end ThreeAddress
