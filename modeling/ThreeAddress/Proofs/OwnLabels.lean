import ThreeAddress.Proofs.Code

/-!
# Labels in code

Lowering makes up labels of its own for comparisons, two for each number it draws. Different numbers
give different labels. If the labels of a method are apart from all of these (`Method.LabelsApart`),
then no label stands twice in its body.
-/

namespace ThreeAddress

theorem toList_holdsLabel (number : Nat) :
    (holdsLabel number).toList = "cmp".toList ++ Nat.toDigits 10 number ++ "_true".toList := by
  simp [holdsLabel, Nat.toList_repr]

theorem toList_endLabel (number : Nat) :
    (endLabel number).toList = "cmp".toList ++ Nat.toDigits 10 number ++ "_end".toList := by
  simp [endLabel, Nat.toList_repr]

theorem toDigits_inj {m n : Nat} (h : Nat.toDigits 10 m = Nat.toDigits 10 n) : m = n := by
  have := congrArg (Nat.ofDigitChars 10 · 0) h
  simpa using this

theorem holdsLabel_inj {m n : Nat} (h : holdsLabel m = holdsLabel n) : m = n := by
  have hlist := congrArg String.toList h
  rw [toList_holdsLabel, toList_holdsLabel] at hlist
  exact toDigits_inj (List.append_cancel_left (List.append_cancel_right hlist))

theorem endLabel_inj {m n : Nat} (h : endLabel m = endLabel n) : m = n := by
  have hlist := congrArg String.toList h
  rw [toList_endLabel, toList_endLabel] at hlist
  exact toDigits_inj (List.append_cancel_left (List.append_cancel_right hlist))

theorem holdsLabel_ne_endLabel (m n : Nat) : holdsLabel m ≠ endLabel n := by
  intro h
  have hlast := congrArg (fun label => label.toList.getLast?) h
  simp only [toList_holdsLabel, toList_endLabel, List.getLast?_append] at hlast
  have heq : some 'e' = some 'd' := hlast
  cases heq

/-- The label is one that lowering could make up. -/
def OwnLabel (label : String) : Prop := ∃ number, label = holdsLabel number ∨ label = endLabel number

-- Enough to tell a label apart, as the labels of lowering all begin alike.
theorem not_ownLabel_of_take {label : String} (h : label.toList.take 3 ≠ "cmp".toList) :
    ¬ OwnLabel label := by
  rintro ⟨number, rfl | rfl⟩
  · rw [toList_holdsLabel, List.append_assoc] at h
    exact h rfl
  · rw [toList_endLabel, List.append_assoc] at h
    exact h rfl

/-- No label of the method is one that lowering could make up. -/
def Method.LabelsApart (method : Method) : Prop :=
  ∀ inst ∈ method.instructions, ∀ label ∈ inst.labels, ¬ OwnLabel label

theorem Method.labelsApart_of_take {method : Method}
    (h : ∀ inst ∈ method.instructions, ∀ label ∈ inst.labels, label.toList.take 3 ≠ "cmp".toList) :
    method.LabelsApart :=
  fun inst hinst label hlabel => not_ownLabel_of_take (h inst hinst label hlabel)

theorem Method.LabelsApart.of_label? {method : Method} (apart : method.LabelsApart)
    (linked : method.Linked) {label : String} {id : Nat} (h : method.label? label = some id) :
    ¬ OwnLabel label := by
  obtain ⟨inst, hinst, hlabel⟩ := (linked.label?_iff label id).mp h
  exact apart inst (Method.mem_of_instruction? hinst) label hlabel

def Item.label? : Item → Option String
  | .label name => some name
  | .op _ => none

def labelsOf (items : List Item) : List String := items.filterMap Item.label?

@[simp] theorem labelsOf_append (first second : List Item) :
    labelsOf (first ++ second) = labelsOf first ++ labelsOf second :=
  List.filterMap_append

@[simp] theorem labelsOf_ops (row : List StackOp) : labelsOf (ops row) = [] := by
  induction row with
  | nil => rfl
  | cons op rest ih => exact ih

@[simp] theorem labelsOf_map_label (labels : List String) : labelsOf (labels.map .label) = labels := by
  induction labels with
  | nil => rfl
  | cons label rest ih => exact congrArg (label :: ·) ih

theorem mem_labelsOf {items : List Item} {label : String} :
    label ∈ labelsOf items ↔ .label label ∈ items := by
  simp only [labelsOf, List.mem_filterMap]
  constructor
  · rintro ⟨item, hitem, hlabel⟩
    cases item with
    | label other =>
      cases hlabel
      exact hitem
    | op op => cases hlabel
  · exact fun h => ⟨_, h, rfl⟩

namespace Site

variable {site : Site} {n n' : Nat}

theorem Pushes.labelsOf {items : List Item} {count : Nat} (h : site.Pushes items count) :
    labelsOf items = [] := by
  obtain ⟨row, rfl, -⟩ := h
  exact labelsOf_ops row

theorem Jumps.labelsOf {items : List Item} {label : String} {always : Bool}
    (h : site.Jumps items label always) : ThreeAddress.labelsOf items = [] := by
  obtain ⟨loaded, op, rfl, hloaded, -⟩ := h
  rw [labelsOf_append, hloaded.labelsOf]
  rfl

theorem Code.labelsOf {items : List Item} (h : site.Code n items n') :
    (n' = n ∧ labelsOf items = []) ∨
      (n' = n + 1 ∧ ThreeAddress.labelsOf items = [holdsLabel n, endLabel n]) := by
  cases h with
  | straight hpushes => exact .inl ⟨rfl, hpushes.labelsOf⟩
  | jump hjumps _ => exact .inl ⟨rfl, hjumps.labelsOf⟩
  | leave hreturns =>
    obtain ⟨loaded, op, rfl, hloaded, -⟩ := hreturns
    rw [labelsOf_append, hloaded.labelsOf]
    exact .inl ⟨rfl, rfl⟩
  | comparison hbefore hjumps =>
    rw [labelsOf_append, labelsOf_append, labelsOf_append, hbefore.labelsOf, hjumps.labelsOf]
    exact .inr ⟨rfl, rfl⟩

/-- The numbers from the first up to the second have been drawn, and this is a label for one of them. -/
def Drawn (n n' : Nat) (label : String) : Prop :=
  ∃ number, n ≤ number ∧ number < n' ∧ (label = holdsLabel number ∨ label = endLabel number)

theorem Drawn.ownLabel {label : String} (h : Drawn n n' label) : OwnLabel label := by
  obtain ⟨number, -, -, hlabel⟩ := h
  exact ⟨number, hlabel⟩

theorem Drawn.disjoint {k : Nat} {label : String} (h : Drawn n k label) : ¬ Drawn k n' label := by
  rintro ⟨number', hle, -, hlabel'⟩
  obtain ⟨number, -, hlt, hlabel⟩ := h
  have heq : number = number' := by
    rcases hlabel with rfl | rfl <;> rcases hlabel' with hlabel' | hlabel'
    · exact holdsLabel_inj hlabel'
    · exact absurd hlabel' (holdsLabel_ne_endLabel _ _)
    · exact absurd hlabel'.symm (holdsLabel_ne_endLabel _ _)
    · exact endLabel_inj hlabel'
  exact absurd hlt (heq ▸ Nat.not_lt.mpr hle)

theorem Drawn.mono {k k' : Nat} {label : String} (h : Drawn k k' label) (hk : n ≤ k) (hk' : k' ≤ n') :
    Drawn n n' label := by
  obtain ⟨number, hle, hlt, hlabel⟩ := h
  exact ⟨number, Nat.le_trans hk hle, Nat.lt_of_lt_of_le hlt hk', hlabel⟩

theorem Code.le {items : List Item} (h : site.Code n items n') : n ≤ n' := by
  rcases h.labelsOf with ⟨rfl, -⟩ | ⟨rfl, -⟩
  · exact Nat.le_refl n'
  · exact Nat.le_succ n

theorem Code.drawn {items : List Item} (h : site.Code n items n') {label : String}
    (hlabel : label ∈ ThreeAddress.labelsOf items) : Drawn n n' label := by
  rcases h.labelsOf with ⟨-, hnone⟩ | ⟨rfl, hboth⟩
  · rw [hnone] at hlabel
    cases hlabel
  · rw [hboth] at hlabel
    exact ⟨n, Nat.le_refl n, Nat.lt_succ_self n, by simpa using hlabel⟩

theorem Code.nodup {items : List Item} (h : site.Code n items n') :
    (ThreeAddress.labelsOf items).Nodup := by
  rcases h.labelsOf with ⟨-, hnone⟩ | ⟨-, hboth⟩
  · rw [hnone]
    exact List.nodup_nil
  · rw [hboth]
    simpa using holdsLabel_ne_endLabel n n

theorem Coded.le {chunks : List Chunk} {items : List Item} (h : site.Coded n chunks items n') :
    n ≤ n' := by
  induction h with
  | nil n => exact Nat.le_refl n
  | cons hcode _ ih => exact Nat.le_trans hcode.le ih

theorem Coded.mem_labelsOf {chunks : List Chunk} {items : List Item}
    (h : site.Coded n chunks items n') {label : String} (hlabel : label ∈ ThreeAddress.labelsOf items) :
    label ∈ chunks.flatMap Chunk.labels ∨ Drawn n n' label := by
  induction h with
  | nil n => cases hlabel
  | cons hcode hrest ih =>
    simp only [labelsOf_append, labelsOf_map_label, List.mem_append] at hlabel
    simp only [List.flatMap_cons, List.mem_append]
    rcases hlabel with (hlabel | hlabel) | hlabel
    · exact .inl (.inl hlabel)
    · exact .inr ((hcode.drawn hlabel).mono (Nat.le_refl _) hrest.le)
    · exact (ih hlabel).imp .inr fun drawn => drawn.mono hcode.le (Nat.le_refl _)

theorem Coded.label_mem {chunks : List Chunk} {items : List Item} (h : site.Coded n chunks items n')
    {label : String} (hlabel : label ∈ chunks.flatMap Chunk.labels) :
    label ∈ ThreeAddress.labelsOf items := by
  induction h with
  | nil n => cases hlabel
  | cons _ _ ih =>
    simp only [labelsOf_append, labelsOf_map_label, List.mem_append]
    rcases List.mem_append.mp hlabel with hlabel | hlabel
    · exact .inl (.inl hlabel)
    · exact .inr (ih hlabel)

/-- No label stands twice. -/
theorem Coded.nodup {chunks : List Chunk} {items : List Item} (h : site.Coded n chunks items n')
    (hnodup : (chunks.flatMap Chunk.labels).Nodup)
    (apart : ∀ label ∈ chunks.flatMap Chunk.labels, ¬ OwnLabel label) :
    (ThreeAddress.labelsOf items).Nodup := by
  induction h with
  | nil n => exact List.nodup_nil
  | cons hcode hrest ih =>
    simp only [List.flatMap_cons, List.mem_append] at apart
    obtain ⟨hlabels, hothers, hdisjoint⟩ := List.nodup_append.mp hnodup
    rw [labelsOf_append, labelsOf_append, labelsOf_map_label]
    refine List.nodup_append.mpr ⟨List.nodup_append.mpr ⟨hlabels, hcode.nodup, ?_⟩,
      ih hothers fun label hlabel => apart label (.inr hlabel), ?_⟩
    · rintro label hlabel _ hdrawn rfl
      exact apart label (.inl hlabel) (hcode.drawn hdrawn).ownLabel
    · rintro label hlabel _ hother rfl
      rcases List.mem_append.mp hlabel with hlabel | hlabel <;>
        rcases hrest.mem_labelsOf hother with hother | hother
      · exact hdisjoint label hlabel label hother rfl
      · exact apart label (.inl hlabel) hother.ownLabel
      · exact apart label (.inr hother) (hcode.drawn hlabel).ownLabel
      · exact (hcode.drawn hlabel).disjoint hother

-- ---------------------------------------------------------------------------
-- Targets
-- ---------------------------------------------------------------------------

theorem Pushes.target {items : List Item} {count : Nat} (h : site.Pushes items count) {op : StackOp}
    (hop : .op op ∈ items) : op.target? = none := by
  obtain ⟨row, rfl, straight, -⟩ := h
  exact ((straight 0).plain (mem_ops.mp hop)).1

/-- A jump goes to a label of the method or to one in the code itself. -/
theorem Code.target {items : List Item} (h : site.Code n items n') {op : StackOp} {label : String}
    (hop : .op op ∈ items) (htarget : op.target? = some label) :
    (∃ id, site.method.label? label = some id) ∨ label ∈ ThreeAddress.labelsOf items := by
  have hnone : op.target? ≠ none := by
    rw [htarget]
    exact Option.some_ne_none label
  have hlabelsOf := h.labelsOf
  cases h with
  | straight hpushes => exact absurd (hpushes.target hop) hnone
  | jump hjumps hlabel =>
    obtain ⟨loaded, last, rfl, hloaded, hlast, -⟩ := hjumps
    rcases List.mem_append.mp hop with hop | hop
    · exact absurd (hloaded.target hop) hnone
    · obtain rfl : op = last := by simpa [mem_ops] using hop
      cases hlast.symm.trans htarget
      exact .inl hlabel
  | leave hreturns =>
    obtain ⟨loaded, last, rfl, hloaded, hlast, -⟩ := hreturns
    rcases List.mem_append.mp hop with hop | hop
    · exact absurd (hloaded.target hop) hnone
    · obtain rfl : op = last := by simpa [mem_ops] using hop
      exact absurd hlast hnone
  | @comparison _ before jump store hbefore hjumps plain _ _ _ =>
    have hlabels := (hlabelsOf.resolve_left fun h => Nat.succ_ne_self n h.1).2
    refine .inr (hlabels ▸ ?_)
    obtain ⟨loaded, last, rfl, hloaded, hlast, -⟩ := hjumps
    simp only [List.mem_append] at hop
    rcases hop with (hop | (hop | hop) | hop) | hop
    · exact absurd (hbefore.target hop) hnone
    · exact absurd (hloaded.target hop) hnone
    · obtain rfl : op = last := by simpa [mem_ops] using hop
      cases hlast.symm.trans htarget
      exact List.mem_cons_self
    · simp only [verdict, List.mem_cons, Item.op.injEq, reduceCtorEq, List.not_mem_nil, or_false,
        false_or] at hop
      rcases hop with rfl | rfl | rfl
      · cases htarget
      · cases htarget
        exact List.mem_cons_of_mem _ List.mem_cons_self
      · cases htarget
    · obtain rfl : op = store := by simpa [mem_ops] using hop
      exact absurd plain.1 hnone

theorem Coded.target {chunks : List Chunk} {items : List Item} (h : site.Coded n chunks items n')
    {op : StackOp} {label : String} (hop : .op op ∈ items) (htarget : op.target? = some label) :
    (∃ id, site.method.label? label = some id) ∨ label ∈ ThreeAddress.labelsOf items := by
  induction h with
  | nil n => cases hop
  | cons hcode _ ih =>
    simp only [labelsOf_append, labelsOf_map_label, List.mem_append, List.mem_map, reduceCtorEq,
      and_false, exists_false, false_or] at hop ⊢
    rcases hop with hop | hop
    · exact (hcode.target hop htarget).imp_right fun h => .inl (.inr h)
    · exact (ih hop).imp_right .inr

end Site

end ThreeAddress
