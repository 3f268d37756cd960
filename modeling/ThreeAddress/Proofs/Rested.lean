import ThreeAddress.Proofs.Depth

/-!
# Every statement leaves the stack empty

The invariant of the scan through a lowered body is `Frame.Rested`: between two statements the stack is
empty, and every label seen so far was seen at its depth. The depth of a label that the method brings
along is zero; the two labels of a comparison have the depth at which the comparison begins and one
more. `Site.Emitted.passes` carries the invariant through a whole body.
-/

namespace ThreeAddress

namespace Frame

variable {depthOf : String → Nat} {frame : Frame}

/-- The labels that were seen have been seen at their depths. -/
def Knows (depthOf : String → Nat) (frame : Frame) : Prop :=
  ∀ label depth, frame.labels.get? label = some depth → depth = depthOf label

structure Rested (depthOf : String → Nat) (frame : Frame) : Prop where
  depth_eq : frame.found.depth = 0
  knows : frame.Knows depthOf

theorem rested_start (depthOf : String → Nat) : Frame.start.Rested depthOf :=
  ⟨rfl, fun _ _ h => nomatch h⟩

theorem Knows.afterOp {op : StackOp} (h : frame.Knows depthOf)
    (hjump : ∀ label, op.target? = some label → (frame.found.afterOp op).depth = depthOf label) :
    (frame.found.afterOp op).Knows depthOf := by
  intro label depth hget
  cases htarget : op.target? with
  | none =>
    simp only [Frame.afterOp, htarget, labels_found] at hget
    exact h label depth hget
  | some target =>
    simp only [Frame.afterOp, htarget, labels_found, Table.get?_setNew] at hget
    by_cases heq : target = label
    · subst heq
      rw [if_pos rfl] at hget
      cases hknown : frame.labels.get? target with
      | none =>
        rw [hknown] at hget
        cases hget
        exact hjump target htarget
      | some known =>
        rw [hknown] at hget
        cases hget
        exact h target known hknown
    · rw [if_neg heq] at hget
      exact h label depth hget

theorem Knows.enterLabel {label : String} (h : frame.Knows depthOf)
    (hdepth : (frame.enterLabel label).depth = depthOf label) :
    (frame.enterLabel label).Knows depthOf := by
  intro other depth hget
  unfold Frame.enterLabel at hget hdepth
  split at hget
  · next hreachable =>
    rw [if_pos hreachable] at hdepth
    simp only [Table.get?_setNew] at hget
    by_cases heq : label = other
    · subst heq
      rw [if_pos rfl] at hget
      cases hknown : frame.labels.get? label with
      | none =>
        rw [hknown] at hget
        cases hget
        exact hdepth
      | some known =>
        rw [hknown] at hget
        cases hget
        exact h label known hknown
    · rw [if_neg heq] at hget
      exact h other depth hget
  · exact h other depth hget

theorem passes_row {row : List StackOp} {depth deep : Nat} (h : Straight row depth deep)
    (hdepth : frame.found.depth = depth) :
    ∃ after, Passes depthOf frame (ops row) after ∧ after.found.depth = deep ∧
      after.labels = frame.labels := by
  induction h generalizing frame with
  | nil => exact ⟨frame, .nil frame, hdepth, rfl⟩
  | @cons op rest depth deep plain hpops _ ih =>
    have hreachable : (frame.found.afterOp op).reachable = true := by simp [afterOp, plain.2]
    have hafter : (frame.found.afterOp op).found.depth = depth - op.pops + op.pushes := by
      rw [found_of_reachable hreachable, ← hdepth]
      rfl
    have hlabels : (frame.found.afterOp op).labels = frame.labels := by
      simp [afterOp, plain.1]
    obtain ⟨after, hpasses, hfound, hsame⟩ := ih hafter
    refine ⟨after, .op (hdepth ▸ hpops) ?_ hpasses, hfound, hsame.trans hlabels⟩
    intro label htarget
    rw [plain.1] at htarget
    cases htarget

theorem passes_labels {labels : List String} (hzero : ∀ label ∈ labels, depthOf label = 0)
    (h : frame.Rested depthOf) :
    ∃ after, Passes depthOf frame (labels.map .label) after ∧ after.Rested depthOf := by
  induction labels generalizing frame with
  | nil => exact ⟨frame, .nil frame, h⟩
  | cons label rest ih =>
    have hlabel := hzero label List.mem_cons_self
    have hdepth : (frame.enterLabel label).depth = depthOf label := by
      unfold enterLabel
      split
      · next hreachable =>
        have := h.depth_eq
        rw [found_of_reachable hreachable] at this
        rw [hlabel]
        exact this
      · cases hknown : frame.labels.get? label with
        | none => exact hlabel.symm
        | some known => exact h.knows label known hknown
    have hrested : (frame.enterLabel label).Rested depthOf := by
      refine ⟨?_, h.knows.enterLabel hdepth⟩
      rw [found_of_reachable (reachable_enterLabel frame label), hdepth, hlabel]
    obtain ⟨after, hpasses, hafter⟩ :=
      ih (fun other hother => hzero other (List.mem_cons_of_mem _ hother)) hrested
    exact ⟨after, .label hdepth hpasses, hafter⟩

theorem depth_found_of_depth (h : frame.depth = 0) : frame.found.depth = 0 := by
  unfold found
  split
  · exact h
  · rfl

/-- An instruction that takes all there is. -/
theorem passes_last {op : StackOp} (knows : frame.Knows depthOf)
    (hdepth : frame.found.depth = op.pops) (hpushes : op.pushes = 0)
    (hjump : ∀ label, op.target? = some label → depthOf label = 0) :
    ∃ after, Passes depthOf frame (ops [op]) after ∧ after.Rested depthOf := by
  have hzero : (frame.found.afterOp op).depth = 0 := by
    show frame.found.depth - op.pops + op.pushes = 0
    omega
  have htarget : ∀ label, op.target? = some label →
      (frame.found.afterOp op).depth = depthOf label := by
    intro label hlabel
    rw [hzero, hjump label hlabel]
  refine ⟨frame.found.afterOp op, .op (Nat.le_of_eq hdepth.symm) htarget (.nil _), ?_,
    knows.afterOp htarget⟩
  exact depth_found_of_depth hzero

end Frame

-- ---------------------------------------------------------------------------
-- Depths of labels
-- ---------------------------------------------------------------------------

open Classical in
/-- The depths of all labels, from the depth at which the comparison with each number begins. -/
noncomputable def labelDepth (below : Nat → Nat) (label : String) : Nat :=
  if h : ∃ number, label = holdsLabel number then below h.choose
  else if h : ∃ number, label = endLabel number then below h.choose + 1
  else 0

@[simp] theorem labelDepth_holdsLabel (below : Nat → Nat) (number : Nat) :
    labelDepth below (holdsLabel number) = below number := by
  have h : ∃ other, holdsLabel number = holdsLabel other := ⟨number, rfl⟩
  rw [labelDepth, dif_pos h, ← holdsLabel_inj h.choose_spec]

@[simp] theorem labelDepth_endLabel (below : Nat → Nat) (number : Nat) :
    labelDepth below (endLabel number) = below number + 1 := by
  have hholds : ¬ ∃ other, endLabel number = holdsLabel other := by
    rintro ⟨other, h⟩
    exact holdsLabel_ne_endLabel other number h.symm
  have h : ∃ other, endLabel number = endLabel other := ⟨number, rfl⟩
  rw [labelDepth, dif_neg hholds, dif_pos h, ← endLabel_inj h.choose_spec]

theorem labelDepth_of_not_ownLabel {below : Nat → Nat} {label : String} (h : ¬ OwnLabel label) :
    labelDepth below label = 0 := by
  have hholds : ¬ ∃ number, label = holdsLabel number := fun ⟨number, heq⟩ => h ⟨number, .inl heq⟩
  have hend : ¬ ∃ number, label = endLabel number := fun ⟨number, heq⟩ => h ⟨number, .inr heq⟩
  rw [labelDepth, dif_neg hholds, dif_neg hend]

-- ---------------------------------------------------------------------------
-- Lowered code
-- ---------------------------------------------------------------------------

namespace Site

open ThreeAddress.Frame (Passes Knows Rested)

variable {site : Site} {n n' : Nat} {depthOf : String → Nat} {frame : Frame}

theorem Pushes.passes {items : List Item} {count : Nat} (h : site.Pushes items count)
    (knows : frame.Knows depthOf) :
    ∃ after, Passes depthOf frame items after ∧ after.found.depth = frame.found.depth + count ∧
      after.Knows depthOf := by
  obtain ⟨row, rfl, straight, -⟩ := h
  obtain ⟨after, hpasses, hdepth, hlabels⟩ := Frame.passes_row (straight _) rfl
  refine ⟨after, hpasses, hdepth, fun label depth hget => knows label depth ?_⟩
  rw [← hlabels]
  exact hget

theorem Pushes.passes_end {loaded : List Item} {op : StackOp} (h : site.Pushes loaded op.pops)
    (rested : frame.Rested depthOf) (hpushes : op.pushes = 0)
    (hjump : ∀ label, op.target? = some label → depthOf label = 0) :
    ∃ after, Passes depthOf frame (loaded ++ ops [op]) after ∧ after.Rested depthOf := by
  obtain ⟨middle, hpasses, hdepth, knows⟩ := h.passes rested.knows
  rw [rested.depth_eq, Nat.zero_add] at hdepth
  obtain ⟨after, hlast, hrested⟩ := Frame.passes_last knows hdepth hpushes hjump
  exact ⟨after, hpasses.append hlast, hrested⟩

/-- A jump that may be taken or not leaves the depth as it found it, and its label has been seen. -/
theorem Jumps.passes {items : List Item} {label : String} (h : site.Jumps items label false)
    (knows : frame.Knows depthOf) (hlabel : depthOf label = frame.found.depth) :
    ∃ after, Passes depthOf frame items after ∧ after.reachable = true ∧
      after.depth = frame.found.depth ∧ after.Knows depthOf ∧
      ∃ depth, after.labels.get? label = some depth := by
  obtain ⟨loaded, op, rfl, hloaded, htarget, hthrough, hpushes, -⟩ := h
  obtain ⟨middle, hpasses, hdepth, knows'⟩ := hloaded.passes knows
  have hafter : (middle.found.afterOp op).depth = frame.found.depth := by
    show middle.found.depth - op.pops + op.pushes = frame.found.depth
    omega
  have hjump : ∀ other, op.target? = some other →
      (middle.found.afterOp op).depth = depthOf other := by
    intro other heq
    cases htarget.symm.trans heq
    rw [hafter, hlabel]
  have hlast : Passes depthOf middle (ops [op]) (middle.found.afterOp op) :=
    .op (by omega) hjump (.nil _)
  refine ⟨middle.found.afterOp op, hpasses.append hlast, ?_, hafter, knows'.afterOp hjump, ?_⟩
  · simp only [Frame.afterOp, hthrough, Bool.not_false]
  · simp only [Frame.afterOp, htarget, Table.get?_setNew, if_pos]
    exact ⟨_, rfl⟩

-- Where the verdict begins, the jump to its first label has been seen. That is how the scan knows the
-- depth there, as nothing falls in from above.
theorem verdict_passes {below : Nat} (knows : frame.Knows depthOf)
    (hreachable : frame.reachable = true) (hdepth : frame.depth = below)
    (hseen : ∃ depth, frame.labels.get? (holdsLabel n) = some depth)
    (hholds : depthOf (holdsLabel n) = below) (hend : depthOf (endLabel n) = below + 1) :
    ∃ after, Passes depthOf frame (verdict n) after ∧ after.found.depth = below + 1 ∧
      after.Knows depthOf := by
  have hfound := Frame.found_of_reachable hreachable
  let zero := frame.found.afterOp (.iconst 0)
  have hzero : zero.depth = below + 1 := by
    show frame.found.depth - 0 + 1 = below + 1
    rw [hfound, hdepth, Nat.sub_zero]
  have hzeroKnows : zero.Knows depthOf := knows.afterOp fun _ h => nomatch h
  let left := zero.found.afterOp (.goto (endLabel n))
  have hleft : ∀ label, (StackOp.goto (endLabel n)).target? = some label →
      left.depth = depthOf label := by
    rintro label ⟨⟩
    rw [hend]
    exact hzero
  have hleftKnows : left.Knows depthOf := hzeroKnows.afterOp hleft
  let entered := left.enterLabel (holdsLabel n)
  have hentered : entered.depth = below := by
    obtain ⟨depth, hget⟩ := hseen
    have hlabels : left.labels = frame.labels.setNew (endLabel n) zero.found.depth := by
      show (zero.found.labels.setNew _ _) = _
      rw [Frame.labels_found]
      show (frame.found.labels.setNew _ _) = _
      rw [Frame.labels_found]
      rfl
    have hstill : left.labels.get? (holdsLabel n) = some depth := by
      rw [hlabels, Table.get?_setNew, if_neg (holdsLabel_ne_endLabel n n).symm, hget]
    show (left.labels.get? (holdsLabel n)).getD 0 = below
    rw [hstill, ← hholds]
    exact hleftKnows _ _ hstill
  have henteredKnows : entered.Knows depthOf := hleftKnows.enterLabel (hentered.trans hholds.symm)
  let one := entered.found.afterOp (.iconst 1)
  have hone : one.depth = below + 1 := by
    show entered.found.depth - 0 + 1 = below + 1
    rw [Frame.found_of_reachable (Frame.reachable_enterLabel _ _), hentered, Nat.sub_zero]
  have honeKnows : one.Knows depthOf := henteredKnows.afterOp fun _ h => nomatch h
  let joined := one.enterLabel (endLabel n)
  have hjoined : joined.depth = below + 1 := hone
  refine ⟨joined, ?_, ?_, honeKnows.enterLabel (hjoined.trans hend.symm)⟩
  · refine .op (Nat.zero_le _) (fun _ h => nomatch h) (.op (Nat.zero_le _) hleft ?_)
    refine .label (hentered.trans hholds.symm) (.op (Nat.zero_le _) (fun _ h => nomatch h) ?_)
    exact .label (hjoined.trans hend.symm) (.nil joined)
  · exact hjoined

/-- The code of a statement starts and ends with an empty stack. -/
theorem Code.passes (apart : site.method.LabelsApart) (linked : site.method.Linked)
    {items : List Item} (h : site.Code n items n') :
    ∃ height, ∀ below : Nat → Nat, (n < n' → below n = height) →
      ∀ frame, Rested (labelDepth below) frame →
        ∃ after, Passes (labelDepth below) frame items after ∧ after.Rested (labelDepth below) := by
  cases h with
  | straight hpushes =>
    refine ⟨0, fun below _ frame rested => ?_⟩
    obtain ⟨after, hpasses, hdepth, knows⟩ := hpushes.passes rested.knows
    exact ⟨after, hpasses, hdepth.trans rested.depth_eq, knows⟩
  | jump hjumps hlabel =>
    refine ⟨0, fun below _ frame rested => ?_⟩
    obtain ⟨loaded, op, rfl, hloaded, htarget, -, hpushes, -⟩ := hjumps
    obtain ⟨id, hid⟩ := hlabel
    refine hloaded.passes_end rested hpushes fun label heq => ?_
    cases htarget.symm.trans heq
    exact labelDepth_of_not_ownLabel (apart.of_label? linked hid)
  | leave hreturns =>
    refine ⟨0, fun below _ frame rested => ?_⟩
    obtain ⟨loaded, op, rfl, hloaded, htarget, -, hpushes, -⟩ := hreturns
    exact hloaded.passes_end rested hpushes fun _ heq => nomatch htarget.symm.trans heq
  | @comparison height before jump store hbefore hjumps plain hpops hpushes _ =>
    refine ⟨height, fun below hbelow frame rested => ?_⟩
    have hheight := hbelow (Nat.lt_succ_self n)
    have hholds : labelDepth below (holdsLabel n) = height := by rw [labelDepth_holdsLabel, hheight]
    have hend : labelDepth below (endLabel n) = height + 1 := by rw [labelDepth_endLabel, hheight]
    obtain ⟨first, hfirst, hdepth, knows⟩ := hbefore.passes rested.knows
    rw [rested.depth_eq, Nat.zero_add] at hdepth
    obtain ⟨second, hsecond, hreachable, hdepth', knows', hseen⟩ :=
      hjumps.passes knows (hholds.trans hdepth.symm)
    obtain ⟨third, hthird, hdepth'', knows''⟩ :=
      verdict_passes knows' hreachable (hdepth'.trans hdepth) hseen hholds hend
    obtain ⟨after, hlast, hrested⟩ := Frame.passes_last knows'' (hdepth''.trans hpops.symm) hpushes
      (fun _ heq => nomatch plain.1.symm.trans heq)
    exact ⟨after, (hfirst.append (hsecond.append hthird)).append hlast, hrested⟩

/-- A store without a value stops the scan. -/
theorem Short.fails {items : List Item} (h : site.Short items) (behind : List Item)
    (rested : frame.Rested depthOf) : ∃ fault, frame.applyAll (items ++ behind) = .error fault := by
  obtain ⟨before, stored, below, store, rfl, hbefore, hstored, hpops⟩ := h
  obtain ⟨middle, hpasses, hdepth, -⟩ := (hbefore.append hstored).passes rested.knows
  rw [rested.depth_eq] at hdepth
  have hfew : middle.found.depth < store.pops := by omega
  rw [List.append_assoc, Frame.applyAll_append hpasses.applyAll]
  refine ⟨.stackUnderflow store.text, ?_⟩
  show Frame.applyAll middle (.op store :: behind) = _
  simp [Frame.applyAll, Frame.apply, hfew]

-- The heights of the numbers that the rest draws are its own; only the number of the first chunk is new.
theorem Coded.passes (apart : site.method.LabelsApart) (linked : site.method.Linked)
    {chunks : List Chunk} {items : List Item} (h : site.Coded n chunks items n')
    (hlabels : ∀ label ∈ chunks.flatMap Chunk.labels, ¬ OwnLabel label) :
    ∃ heights : Nat → Nat, ∀ below : Nat → Nat,
      (∀ number, n ≤ number → number < n' → below number = heights number) →
      ∀ frame, Rested (labelDepth below) frame →
        ∃ after, Passes (labelDepth below) frame items after ∧ after.Rested (labelDepth below) := by
  induction h with
  | nil n => exact ⟨fun _ => 0, fun _ _ frame rested => ⟨frame, .nil frame, rested⟩⟩
  | @cons n k n' chunk rest code others hcode hrest ih =>
    simp only [List.flatMap_cons, List.mem_append] at hlabels
    obtain ⟨height, hfirst⟩ := hcode.passes apart linked
    obtain ⟨heights, hothers⟩ := ih fun label hlabel => hlabels label (.inr hlabel)
    refine ⟨fun number => if number < k then height else heights number,
      fun below hbelow frame rested => ?_⟩
    have hheight : n < k → below n = height := by
      intro hnk
      exact (hbelow n (Nat.le_refl n) (Nat.lt_of_lt_of_le hnk hrest.le)).trans (if_pos hnk)
    have hheights : ∀ number, k ≤ number → number < n' → below number = heights number := by
      intro number hk hn'
      exact (hbelow number (Nat.le_trans hcode.le hk) hn').trans (if_neg (Nat.not_lt.mpr hk))
    obtain ⟨first, hpasses, hfirstRested⟩ := Frame.passes_labels
      (fun label hlabel => labelDepth_of_not_ownLabel (hlabels label (.inl hlabel))) rested
    obtain ⟨second, hpasses', hsecondRested⟩ := hfirst below hheight first hfirstRested
    obtain ⟨after, hpasses'', hafter⟩ := hothers below hheights second hsecondRested
    exact ⟨after, (hpasses.append hpasses').append hpasses'', hafter⟩

end Site

end ThreeAddress
