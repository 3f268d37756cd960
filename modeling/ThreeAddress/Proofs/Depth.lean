import ThreeAddress.Proofs.OwnLabels

/-!
# Depths along paths

`Reaches` follows every path of control through a body and the depth of the operand stack on the way. A
scan from top to bottom, which is what `Frame` makes, says nothing about paths in general. It does if
every label has one depth, with which control reaches it from everywhere: `Frame.Passes` is the scan
together with such a choice of depths, and `Frame.Passes.reaches` draws the conclusion for paths.
-/

namespace ThreeAddress

/-- Control can come to the item with this index, with this many values on the stack. -/
inductive Reaches (body : List Item) : Nat → Nat → Prop
  | start : Reaches body 0 0
  | label {index depth : Nat} {label : String} : Reaches body index depth →
    body[index]? = some (.label label) → Reaches body (index + 1) depth
  | next {index depth : Nat} {op : StackOp} : Reaches body index depth →
    body[index]? = some (.op op) → op.isTerminator = false → op.pops ≤ depth →
    Reaches body (index + 1) (depth - op.pops + op.pushes)
  | jump {index depth target : Nat} {op : StackOp} {label : String} : Reaches body index depth →
    body[index]? = some (.op op) → op.target? = some label → op.pops ≤ depth →
    body[target]? = some (.label label) → Reaches body target (depth - op.pops + op.pushes)

namespace Frame

variable {depthOf : String → Nat} {frame after : Frame}

theorem found_of_reachable (h : frame.reachable = true) : frame.found = frame := by
  simp [found, h]

@[simp] theorem labels_found (frame : Frame) : frame.found.labels = frame.labels := by
  unfold found
  split <;> rfl

@[simp] theorem max_found (frame : Frame) : frame.found.max = frame.max := by
  unfold found
  split <;> rfl

/-- The scan goes through, and at every label and every jump to it the depth is the one of the label. -/
inductive Passes (depthOf : String → Nat) : Frame → List Item → Frame → Prop
  | nil (frame : Frame) : Passes depthOf frame [] frame
  | label {frame after : Frame} {label : String} {rest : List Item} :
    (frame.enterLabel label).depth = depthOf label →
    Passes depthOf (frame.enterLabel label) rest after →
    Passes depthOf frame (.label label :: rest) after
  | op {frame after : Frame} {op : StackOp} {rest : List Item} : op.pops ≤ frame.found.depth →
    (∀ label, op.target? = some label → (frame.found.afterOp op).depth = depthOf label) →
    Passes depthOf (frame.found.afterOp op) rest after → Passes depthOf frame (.op op :: rest) after

theorem Passes.append {first second : List Item} {middle : Frame}
    (h : Passes depthOf frame first middle) (h' : Passes depthOf middle second after) :
    Passes depthOf frame (first ++ second) after := by
  induction h with
  | nil => exact h'
  | label hdepth _ ih => exact .label hdepth (ih h')
  | op hpops hjump _ ih => exact .op hpops hjump (ih h')

theorem Passes.split {first second : List Item} (h : Passes depthOf frame (first ++ second) after) :
    ∃ middle, Passes depthOf frame first middle ∧ Passes depthOf middle second after := by
  induction first generalizing frame with
  | nil => exact ⟨frame, .nil frame, h⟩
  | cons item rest ih =>
    cases h with
    | label hdepth hrest =>
      obtain ⟨middle, hfirst, hsecond⟩ := ih hrest
      exact ⟨middle, .label hdepth hfirst, hsecond⟩
    | op hpops hjump hrest =>
      obtain ⟨middle, hfirst, hsecond⟩ := ih hrest
      exact ⟨middle, .op hpops hjump hfirst, hsecond⟩

theorem applyAll_append {first second : List Item} {middle : Frame}
    (h : frame.applyAll first = .ok middle) :
    frame.applyAll (first ++ second) = middle.applyAll second := by
  induction first generalizing frame with
  | nil =>
    cases h
    rfl
  | cons item rest ih =>
    simp only [List.cons_append, applyAll] at h ⊢
    split at h
    · exact ih h
    · cases h

theorem Passes.applyAll {items : List Item} (h : Passes depthOf frame items after) :
    frame.applyAll items = .ok after := by
  induction h with
  | nil => rfl
  | label _ _ ih => exact ih
  | op hpops _ _ ih =>
    simp only [Frame.applyAll, apply, Nat.not_lt.mpr hpops, if_false]
    exact ih

theorem Passes.max_le {items : List Item} (h : Passes depthOf frame items after) :
    frame.max ≤ after.max := by
  induction h with
  | nil => exact Nat.le_refl _
  | @label frame _ label _ _ _ ih =>
    have hsame : (frame.enterLabel label).max = frame.max := by
      unfold enterLabel
      split <;> rfl
    exact hsame ▸ ih
  | @op frame _ op _ _ _ _ ih =>
    have hgrows : frame.max ≤ (frame.found.afterOp op).max := by
      rw [← max_found frame]
      exact Nat.le_max_left _ _
    exact Nat.le_trans hgrows ih

-- ---------------------------------------------------------------------------
-- Paths
-- ---------------------------------------------------------------------------

/-- The depth with which the scan comes to an item. -/
def entering (frame : Frame) : Item → Nat
  | .label label => (frame.enterLabel label).depth
  | .op _ => frame.found.depth

theorem entering_of_reachable (h : frame.reachable = true) (item : Item) :
    frame.entering item = frame.depth := by
  cases item with
  | label label => simp [entering, enterLabel, h]
  | op op => simp [entering, found, h]

/-- The scan comes to the item with this index at this depth. -/
def ScanAt (depthOf : String → Nat) (body : List Item) (after : Frame) (index depth : Nat) : Prop :=
  ∃ before item rest frame, body = before ++ item :: rest ∧ before.length = index ∧
    Passes depthOf Frame.start before frame ∧ Passes depthOf frame (item :: rest) after ∧
    depth = frame.entering item

theorem scanAt_of_getElem? {body : List Item} {index : Nat} {item : Item}
    (h : Passes depthOf Frame.start body after) (hitem : body[index]? = some item) :
    ∃ before rest frame, body = before ++ item :: rest ∧ before.length = index ∧
      Passes depthOf Frame.start before frame ∧ Passes depthOf frame (item :: rest) after := by
  obtain ⟨hlt, hget⟩ := List.getElem?_eq_some_iff.mp hitem
  have hbody : body = body.take index ++ item :: body.drop (index + 1) := by
    rw [← hget, List.getElem_cons_drop, List.take_append_drop]
  rw [hbody] at h
  obtain ⟨middle, hbefore, hrest⟩ := h.split
  exact ⟨_, _, middle, hbody, by simp; omega, hbefore, hrest⟩

theorem ScanAt.unique {body : List Item} {index depth depth' : Nat}
    (h : ScanAt depthOf body after index depth) (h' : ScanAt depthOf body after index depth') :
    depth = depth' := by
  obtain ⟨before, item, rest, frame, hbody, hindex, hbefore, -, rfl⟩ := h
  obtain ⟨before', item', rest', frame', hbody', hindex', hbefore', -, rfl⟩ := h'
  obtain ⟨rfl, hcons⟩ := List.append_inj (hbody.symm.trans hbody') (hindex.trans hindex'.symm)
  cases hcons
  cases hbefore.applyAll.symm.trans hbefore'.applyAll
  rfl

/-- The last item sends control elsewhere. -/
def EndsClosed (body : List Item) : Prop :=
  ∃ op, body.getLast? = some (.op op) ∧ op.isTerminator = true

-- Behind an item that lets control through there is another one, and the scan is at the same depth.
theorem ScanAt.next {body before rest : List Item} {item : Item} {middle : Frame}
    (closed : EndsClosed body) (hbody : body = before ++ item :: rest)
    (hthrough : ∀ op, item = .op op → op.isTerminator = false)
    (hbefore : Passes depthOf Frame.start (before ++ [item]) middle)
    (hrest : Passes depthOf middle rest after) (hreachable : middle.reachable = true) :
    ScanAt depthOf body after (before.length + 1) middle.depth := by
  cases rest with
  | nil =>
    obtain ⟨op, hlast, hterminator⟩ := closed
    rw [hbody, List.getLast?_append] at hlast
    cases hlast
    rw [hthrough op rfl] at hterminator
    cases hterminator
  | cons item' rest' =>
    refine ⟨before ++ [item], item', rest', middle, ?_, ?_, hbefore, hrest, ?_⟩
    · rw [hbody, List.append_assoc, List.singleton_append]
    · rw [List.length_append, List.length_singleton]
    · exact (entering_of_reachable hreachable item').symm

theorem reachable_enterLabel (frame : Frame) (label : String) :
    (frame.enterLabel label).reachable = true := by
  unfold enterLabel
  split
  · next h => exact h
  · rfl

theorem ScanAt.item {body : List Item} {index depth : Nat} {item : Item}
    (h : ScanAt depthOf body after index depth) (hitem : body[index]? = some item) :
    ∃ before rest frame, body = before ++ item :: rest ∧ before.length = index ∧
      Passes depthOf Frame.start before frame ∧ Passes depthOf frame (item :: rest) after ∧
      depth = frame.entering item := by
  obtain ⟨before, other, rest, frame, rfl, rfl, hbefore, hrest, hdepth⟩ := h
  obtain rfl : other = item := by simpa using hitem
  exact ⟨before, rest, frame, rfl, rfl, hbefore, hrest, hdepth⟩

/-- Every path agrees with the scan. -/
theorem Passes.reaches {body : List Item} {index depth : Nat} (closed : EndsClosed body)
    (h : Passes depthOf Frame.start body after) (hreaches : Reaches body index depth) :
    ScanAt depthOf body after index depth ∧ depth ≤ after.max := by
  induction hreaches with
  | start =>
    refine ⟨?_, Nat.zero_le _⟩
    cases body with
    | nil =>
      obtain ⟨op, hlast, -⟩ := closed
      cases hlast
    | cons item rest =>
      have hreachable : Frame.start.reachable = true := rfl
      have hstart := entering_of_reachable hreachable item
      exact ⟨[], item, rest, Frame.start, rfl, rfl, .nil _, h, hstart.symm⟩
  | @label index depth label _ hitem ih =>
    refine ⟨?_, ih.2⟩
    obtain ⟨before, rest, frame, hbody, rfl, hbefore, hpasses, rfl⟩ := ih.1.item hitem
    cases hpasses with
    | label hdepth hrest =>
      have hboth := hbefore.append (.label hdepth (.nil _))
      exact ScanAt.next closed hbody (fun _ h => nomatch h) hboth hrest (reachable_enterLabel _ _)
  | @next index depth op _ hitem hterminator _ ih =>
    obtain ⟨before, rest, frame, hbody, rfl, hbefore, hpasses, rfl⟩ := ih.1.item hitem
    cases hpasses with
    | op hpops hjump hrest =>
      have hboth := hbefore.append (.op hpops hjump (.nil _))
      have hreachable : (frame.found.afterOp op).reachable = true := by simp [afterOp, hterminator]
      have hthrough : ∀ other, Item.op op = .op other → other.isTerminator = false := by
        rintro other ⟨⟩
        exact hterminator
      refine ⟨ScanAt.next closed hbody hthrough hboth hrest hreachable, ?_⟩
      exact Nat.le_trans (Nat.le_max_right frame.found.max _) hrest.max_le
  | @jump index depth target op label _ hitem htarget _ hlabel ih =>
    obtain ⟨before, rest, frame, hbody, rfl, hbefore, hpasses, rfl⟩ := ih.1.item hitem
    obtain ⟨before', rest', frame', hbody', rfl, hbefore', hpasses'⟩ := scanAt_of_getElem? h hlabel
    cases hpasses with
    | op hpops hjump hrest =>
      refine ⟨⟨before', _, rest', frame', hbody', rfl, hbefore', hpasses', ?_⟩, ?_⟩
      · cases hpasses' with
        | label hdepth _ => exact (hjump label htarget).trans hdepth.symm
      · exact Nat.le_trans (Nat.le_max_right frame.found.max _) hrest.max_le

/-- No instruction on a path lacks values, and what it leaves is within the maximum. -/
theorem Passes.reaches_op {body : List Item} {index depth : Nat} {op : StackOp}
    (closed : EndsClosed body) (h : Passes depthOf Frame.start body after)
    (hreaches : Reaches body index depth) (hitem : body[index]? = some (.op op)) :
    op.pops ≤ depth ∧ depth - op.pops + op.pushes ≤ after.max := by
  obtain ⟨before, rest, frame, hbody, rfl, hbefore, hpasses, rfl⟩ :=
    (h.reaches closed hreaches).1.item hitem
  cases hpasses with
  | op hpops hjump hrest =>
    exact ⟨hpops, Nat.le_trans (Nat.le_max_right frame.found.max _) hrest.max_le⟩

end Frame

end ThreeAddress
