import ThreeAddress.Proofs.Rested

/-!
# Renaming labels

What becomes of a body, and of the scan through it, when its labels are renamed by a function that keeps
different labels apart. The frames on the way differ in the names of the labels alone (`Frame.Alike`), and
so does what is found out in the end. The one thing that could tell is a fault, which gives the text of
the instruction that lacks values. `Steady` says of items that they have no such fault to tell: an
instruction whose target is renamed never lacks values.

`shiftLabel` is the renaming that matters: it adds to the number of a label made up by lowering, and leaves
all others alone.
-/

namespace ThreeAddress

-- ---------------------------------------------------------------------------
-- Computations that go alike
-- ---------------------------------------------------------------------------

section Concur

variable {α β α' β' : Type} {R : α → β → Prop} {S : α' → β' → Prop}

/-- Both computations fail for the same reason, or both succeed and the relation holds. -/
def Concur (R : α → β → Prop) : Except Fault α → Except Fault β → Prop
  | .ok a, .ok b => R a b
  | .error fault, .error fault' => fault = fault'
  | _, _ => False

theorem Concur.bind {x : Except Fault α} {y : Except Fault β} {f : α → Except Fault α'}
    {g : β → Except Fault β'} (h : Concur R x y)
    (hf : ∀ a b, x = .ok a → R a b → Concur S (f a) (g b)) : Concur S (x >>= f) (y >>= g) := by
  cases x <;> cases y
  · exact h
  · exact h.elim
  · exact h.elim
  · exact hf _ _ rfl h

theorem concur_self {R : α → α → Prop} {x : Except Fault α} (h : ∀ a, x = .ok a → R a a) :
    Concur R x x := by
  cases x with
  | error fault => rfl
  | ok a => exact h a rfl

end Concur

-- ---------------------------------------------------------------------------
-- Items
-- ---------------------------------------------------------------------------

variable {f : String → String}

namespace StackOp

def relabel (f : String → String) : StackOp → StackOp
  | .ifZero comparison label => .ifZero comparison (f label)
  | .ifCompare comparison label => .ifCompare comparison (f label)
  | .goto label => .goto (f label)
  | op => op

@[simp] theorem pops_relabel (op : StackOp) : (op.relabel f).pops = op.pops := by
  cases op <;> rfl

@[simp] theorem pushes_relabel (op : StackOp) : (op.relabel f).pushes = op.pushes := by
  cases op <;> rfl

@[simp] theorem isTerminator_relabel (op : StackOp) : (op.relabel f).isTerminator = op.isTerminator := by
  cases op <;> rfl

@[simp] theorem target?_relabel (op : StackOp) : (op.relabel f).target? = op.target?.map f := by
  cases op <;> rfl

theorem relabel_of_none {op : StackOp} (h : op.target? = none) : op.relabel f = op := by
  cases op with
  | ifZero comparison label => cases h
  | ifCompare comparison label => cases h
  | goto label => cases h
  | _ => rfl

end StackOp

def Item.relabel (f : String → String) : Item → Item
  | .label name => .label (f name)
  | .op instruction => .op (instruction.relabel f)

def MethodListing.relabel (f : String → String) (listing : MethodListing) : MethodListing :=
  { listing with body := listing.body.map (Item.relabel f) }

theorem map_relabel_eq_self {items : List Item} (h : ∀ item ∈ items, item.relabel f = item) :
    items.map (Item.relabel f) = items := by
  conv => rhs; rw [← List.map_id items]
  exact List.map_congr_left h

-- ---------------------------------------------------------------------------
-- Scans
-- ---------------------------------------------------------------------------

namespace Frame

variable {frame frame' : Frame}

/-- The frames differ in the names of the labels alone. -/
structure Alike (f : String → String) (frame frame' : Frame) : Prop where
  depth : frame'.depth = frame.depth
  max : frame'.max = frame.max
  reachable : frame'.reachable = frame.reachable
  labels : ∀ label, frame'.labels.get? (f label) = frame.labels.get? label

theorem alike_start : Alike f start start := ⟨rfl, rfl, rfl, fun _ => rfl⟩

theorem Alike.found (h : Alike f frame frame') : Alike f frame.found frame'.found := by
  unfold Frame.found
  rw [h.reachable]
  split
  · exact h
  · exact ⟨rfl, h.max, rfl, h.labels⟩

theorem get?_setNew_relabel (inj : Function.Injective f) {labels labels' : Table Nat}
    (h : ∀ label, labels'.get? (f label) = labels.get? label) (target label : String) (depth : Nat) :
    (labels'.setNew (f target) depth).get? (f label) = (labels.setNew target depth).get? label := by
  simp only [Table.get?_setNew, h, inj.eq_iff]

theorem Alike.enterLabel (inj : Function.Injective f) (h : Alike f frame frame') (label : String) :
    Alike f (frame.enterLabel label) (frame'.enterLabel (f label)) := by
  unfold Frame.enterLabel
  rw [h.reachable]
  split
  · refine ⟨h.depth, h.max, rfl, fun other => ?_⟩
    rw [h.depth]
    exact get?_setNew_relabel inj h.labels label other frame.depth
  · exact ⟨by rw [h.labels], h.max, rfl, h.labels⟩

theorem Alike.afterOp (inj : Function.Injective f) (h : Alike f frame frame') (op : StackOp) :
    Alike f (frame.afterOp op) (frame'.afterOp (op.relabel f)) := by
  refine ⟨?_, ?_, ?_, fun label => ?_⟩
  · simp [Frame.afterOp, h.depth]
  · simp [Frame.afterOp, h.depth, h.max]
  · simp [Frame.afterOp]
  · cases htarget : op.target? with
    | none => simpa [Frame.afterOp, htarget] using h.labels label
    | some target =>
      simp only [Frame.afterOp, StackOp.target?_relabel, htarget, Option.map_some, StackOp.pops_relabel,
        StackOp.pushes_relabel, h.depth]
      exact get?_setNew_relabel inj h.labels target label _

theorem Alike.apply_op (inj : Function.Injective f) (h : Alike f frame frame') {op : StackOp}
    (hop : op.pops ≤ frame.found.depth ∨ op.relabel f = op) :
    Concur (Alike f) (frame.apply (.op op)) (frame'.apply (.op (op.relabel f))) := by
  simp only [Frame.apply, StackOp.pops_relabel, h.found.depth]
  split
  · next hshort =>
    rw [hop.resolve_left (Nat.not_le.mpr hshort)]
    rfl
  · exact h.found.afterOp inj op

theorem applyAll_eq_bind (frame : Frame) (first second : List Item) :
    frame.applyAll (first ++ second)
      = frame.applyAll first >>= fun middle => middle.applyAll second := by
  induction first generalizing frame with
  | nil => rfl
  | cons item rest ih =>
    simp only [List.cons_append, applyAll]
    split
    · exact ih _
    · rfl

theorem applyAll_singleton (frame : Frame) (item : Item) : frame.applyAll [item] = frame.apply item := by
  simp only [applyAll]
  split <;> simp_all

end Frame

/-- Scans through the items and through the renamed ones go alike, faults included. -/
def Steady (f : String → String) (items : List Item) : Prop :=
  ∀ frame frame' : Frame, frame.Alike f frame' →
    Concur (Frame.Alike f) (frame.applyAll items) (frame'.applyAll (items.map (Item.relabel f)))

theorem steady_nil : Steady f [] := fun _ _ alike => alike

theorem Steady.append {first second : List Item} (h : Steady f first) (h' : Steady f second) :
    Steady f (first ++ second) := by
  intro frame frame' alike
  rw [List.map_append, Frame.applyAll_eq_bind, Frame.applyAll_eq_bind]
  exact (h _ _ alike).bind fun _ _ _ middle => h' _ _ middle

theorem Site.Pushes.fixed {site : Site} {items : List Item} {count : Nat} (h : site.Pushes items count) :
    ∀ item ∈ items, item.relabel f = item := by
  obtain ⟨row, rfl, straight, -⟩ := h
  intro item hitem
  obtain ⟨op, hop, rfl⟩ := List.mem_map.mp hitem
  exact congrArg Item.op (StackOp.relabel_of_none ((straight 0).plain hop).1)

section Steady

variable (inj : Function.Injective f)
include inj

theorem steady_label (label : String) : Steady f [.label label] := by
  intro frame frame' alike
  exact alike.enterLabel inj label

theorem steady_op {op : StackOp} (h : op.pops = 0 ∨ op.relabel f = op) : Steady f [.op op] := by
  intro frame frame' alike
  rw [List.map_singleton, Frame.applyAll_singleton, Frame.applyAll_singleton]
  exact alike.apply_op inj (h.imp_left fun hpops => by omega)

theorem steady_of_fixed {items : List Item} (h : ∀ item ∈ items, item.relabel f = item) :
    Steady f items := by
  induction items with
  | nil => exact steady_nil
  | cons item rest ih =>
    obtain ⟨hitem, hrest⟩ := List.forall_mem_cons.mp h
    have hone : Steady f [item] := by
      cases item with
      | label label => exact steady_label inj label
      | op op => exact steady_op inj (.inr (Item.op.inj hitem))
    exact hone.append (ih hrest)

-- An instruction that is given all it takes does not lack values, whatever its target is called.
theorem Site.Pushes.steady_snoc {site : Site} {loaded : List Item} {op : StackOp}
    (h : site.Pushes loaded op.pops) : Steady f (loaded ++ ops [op]) := by
  intro frame frame' alike
  have hloaded := steady_of_fixed inj h.fixed frame frame' alike
  obtain ⟨row, rfl, straight, -⟩ := h
  obtain ⟨after, hpasses, hdepth, -⟩ :=
    @Frame.passes_row (fun _ => 0) frame _ _ _ (straight frame.found.depth) rfl
  rw [List.map_append, Frame.applyAll_eq_bind, Frame.applyAll_eq_bind]
  refine hloaded.bind fun middle middle' hmiddle hsame => ?_
  cases hpasses.applyAll.symm.trans hmiddle
  have henough : op.pops ≤ after.found.depth := by omega
  show Concur _ (after.applyAll [.op op]) (middle'.applyAll [.op (op.relabel f)])
  rw [Frame.applyAll_singleton, Frame.applyAll_singleton]
  exact hsame.apply_op inj (.inl henough)

end Steady

/-- The second items are the first ones renamed, and it does not show in a scan. -/
structure Renamed (f : String → String) (items items' : List Item) : Prop where
  eq : items' = items.map (Item.relabel f)
  steady : Steady f items

theorem Renamed.append {first first' second second' : List Item} (h : Renamed f first first')
    (h' : Renamed f second second') : Renamed f (first ++ second) (first' ++ second') :=
  ⟨by rw [h.eq, h'.eq, List.map_append], h.steady.append h'.steady⟩

theorem renamed_of_fixed (inj : Function.Injective f) {items : List Item}
    (h : ∀ item ∈ items, item.relabel f = item) : Renamed f items items :=
  ⟨(map_relabel_eq_self h).symm, steady_of_fixed inj h⟩

theorem Site.Pushes.renamed_snoc (inj : Function.Injective f) {site : Site} {loaded : List Item}
    {op : StackOp} (h : site.Pushes loaded op.pops) :
    Renamed f (loaded ++ ops [op]) (loaded ++ ops [op.relabel f]) := by
  refine ⟨?_, h.steady_snoc inj⟩
  rw [List.map_append, map_relabel_eq_self h.fixed]
  rfl

theorem Renamed.maxStack_eq {items items' : List Item} (h : Renamed f items items') :
    maxStack items' = maxStack items := by
  have hsame := h.steady _ _ Frame.alike_start
  rw [← h.eq] at hsame
  unfold maxStack
  cases hfirst : Frame.start.applyAll items <;> cases hsecond : Frame.start.applyAll items'
  all_goals rw [hfirst, hsecond] at hsame
  · exact congrArg Except.error hsame.symm
  · exact hsame.elim
  · exact hsame.elim
  · exact congrArg Except.ok hsame.max

-- ---------------------------------------------------------------------------
-- Shifting the numbers of made up labels
-- ---------------------------------------------------------------------------

/-- The number in a label that lowering made up. -/
def labelNumber (label : String) : Nat :=
  Nat.ofDigitChars 10 ((label.toList.drop 3).takeWhile Char.isDigit) 0

/-- Adds to the number of a label that lowering made up, and leaves all other labels alone. -/
def shiftLabel (count : Nat) (label : String) : String :=
  let number := labelNumber label
  if label = holdsLabel number then holdsLabel (number + count)
  else if label = endLabel number then endLabel (number + count)
  else label

theorem labelNumber_eq {label : String} {number : Nat} {rest : List Char}
    (hrest : rest.takeWhile Char.isDigit = [])
    (h : label.toList = "cmp".toList ++ Nat.toDigits 10 number ++ rest) : labelNumber label = number := by
  have hdigits : ∀ c ∈ Nat.toDigits 10 number, c.isDigit = true :=
    fun _ hc => Nat.isDigit_of_mem_toDigits (by decide) (by decide) hc
  rw [labelNumber, h, List.append_assoc]
  show Nat.ofDigitChars 10 ((Nat.toDigits 10 number ++ rest).takeWhile Char.isDigit) 0 = number
  rw [List.takeWhile_append_of_pos hdigits, hrest, List.append_nil]
  exact Nat.ofDigitChars_toDigits (by decide) (by decide)

@[simp] theorem shiftLabel_holdsLabel (count number : Nat) :
    shiftLabel count (holdsLabel number) = holdsLabel (number + count) := by
  have hnumber : labelNumber (holdsLabel number) = number :=
    labelNumber_eq (by decide) (toList_holdsLabel number)
  simp only [shiftLabel, hnumber, if_true]

@[simp] theorem shiftLabel_endLabel (count number : Nat) :
    shiftLabel count (endLabel number) = endLabel (number + count) := by
  have hnumber : labelNumber (endLabel number) = number :=
    labelNumber_eq (by decide) (toList_endLabel number)
  simp only [shiftLabel, hnumber, if_neg (holdsLabel_ne_endLabel number number).symm, if_true]

theorem shiftLabel_of_not_ownLabel (count : Nat) {label : String} (h : ¬ OwnLabel label) :
    shiftLabel count label = label := by
  have hholds : label ≠ holdsLabel (labelNumber label) := fun heq => h ⟨_, .inl heq⟩
  have hend : label ≠ endLabel (labelNumber label) := fun heq => h ⟨_, .inr heq⟩
  simp only [shiftLabel, if_neg hholds, if_neg hend]

theorem shiftLabel_injective (count : Nat) : Function.Injective (shiftLabel count) := by
  -- Made up labels stay made up and keep their kind, and the others stay where they are.
  have apart {label other : String} (hlabel : OwnLabel label) (hother : ¬ OwnLabel other) :
      shiftLabel count label ≠ shiftLabel count other := by
    rw [shiftLabel_of_not_ownLabel count hother]
    rintro rfl
    obtain ⟨number, rfl | rfl⟩ := hlabel
    · exact hother ⟨_, .inl (shiftLabel_holdsLabel count number)⟩
    · exact hother ⟨_, .inr (shiftLabel_endLabel count number)⟩
  intro label other heq
  by_cases hlabel : OwnLabel label <;> by_cases hother : OwnLabel other
  · obtain ⟨number, rfl | rfl⟩ := hlabel <;> obtain ⟨number', rfl | rfl⟩ := hother <;>
      simp only [shiftLabel_holdsLabel, shiftLabel_endLabel] at heq
    · rw [Nat.add_right_cancel (holdsLabel_inj heq)]
    · exact absurd heq (holdsLabel_ne_endLabel _ _)
    · exact absurd heq.symm (holdsLabel_ne_endLabel _ _)
    · rw [Nat.add_right_cancel (endLabel_inj heq)]
  · exact absurd heq (apart hlabel hother)
  · exact absurd heq.symm (apart hother hlabel)
  · rwa [shiftLabel_of_not_ownLabel count hlabel, shiftLabel_of_not_ownLabel count hother] at heq

end ThreeAddress
