import Mathlib.Data.List.Forall2
import Mathlib.Data.List.Perm.Subperm
import ThreeAddress.Liveness

/-!
# Liveness settles

A pass only ever adds names to the live sets, and it reports a change exactly when it adds one. The
names it adds occur in the nodes already, so the passes that `Liveness.settle` allows are enough: it
ends with a pass that changes nothing, and the sets it returns satisfy the equations of liveness
(`Liveness.closed_settle`).
-/

namespace ThreeAddress

namespace NameSet

theorem subset_trans {a b c : NameSet} (hab : a ⊆ b) (hbc : b ⊆ c) : a ⊆ c :=
  fun name h => hbc name (hab name h)

theorem names_nodup (set : NameSet) : set.names.Nodup :=
  set.ordered.imp fun h => fun eq => String.lt_irrefl _ (eq ▸ h)

theorem size_le_of_subset {set other : NameSet} (h : set ⊆ other) : set.size ≤ other.size :=
  (List.subperm_of_subset set.names_nodup h).length_le

theorem eq_of_subset_of_size {set other : NameSet} (h : set ⊆ other) (hsize : set.size = other.size) :
    set = other := by
  have hperm := (List.subperm_of_subset set.names_nodup h).perm_of_length_le
    (Nat.le_of_eq hsize.symm)
  exact ext fun name => hperm.mem_iff

end NameSet

namespace LiveNode

/-- The part of a node that no pass changes. -/
def outline (node : LiveNode) : LiveNode := { node with liveIn := ∅, liveOut := ∅ }

/-- How many names the live sets of a node hold. -/
def weight (node : LiveNode) : Nat := node.liveIn.size + node.liveOut.size

/-- The second node is the first with larger live sets. -/
structure Below (node other : LiveNode) : Prop where
  outline_eq : node.outline = other.outline
  liveIn_subset : node.liveIn ⊆ other.liveIn
  liveOut_subset : node.liveOut ⊆ other.liveOut

theorem Below.refl (node : LiveNode) : node.Below node :=
  ⟨rfl, fun _ h => h, fun _ h => h⟩

theorem Below.trans {a b c : LiveNode} (hab : a.Below b) (hbc : b.Below c) : a.Below c :=
  ⟨hab.outline_eq.trans hbc.outline_eq, NameSet.subset_trans hab.liveIn_subset hbc.liveIn_subset,
    NameSet.subset_trans hab.liveOut_subset hbc.liveOut_subset⟩

theorem Below.weight_le {a b : LiveNode} (h : a.Below b) : a.weight ≤ b.weight :=
  Nat.add_le_add (NameSet.size_le_of_subset h.liveIn_subset)
    (NameSet.size_le_of_subset h.liveOut_subset)

theorem Below.eq_of_weight {a b : LiveNode} (h : a.Below b) (hweight : a.weight = b.weight) :
    a = b := by
  have hin := NameSet.size_le_of_subset h.liveIn_subset
  have hout := NameSet.size_le_of_subset h.liveOut_subset
  unfold weight at hweight
  have hliveIn := NameSet.eq_of_subset_of_size h.liveIn_subset (by omega)
  have hliveOut := NameSet.eq_of_subset_of_size h.liveOut_subset (by omega)
  have houtline := h.outline_eq
  cases a
  cases b
  simp only [outline, mk.injEq] at houtline hliveIn hliveOut ⊢
  exact ⟨houtline.1, houtline.2.1, houtline.2.2.1, hliveIn, hliveOut, houtline.2.2.2.2.2⟩

/-- The node with its live-in set brought up to date and `names` added to its live-out set. -/
def grown (node : LiveNode) (names : NameSet) : LiveNode :=
  { node.enter with liveOut := node.liveOut ∪ names }

theorem below_grown (node : LiveNode) (names : NameSet) : node.Below (node.grown names) :=
  ⟨rfl, fun _ h => NameSet.mem_union.mpr (.inl h), fun _ h => NameSet.mem_union.mpr (.inl h)⟩

end LiveNode

namespace Liveness

/-- The second list has the same nodes with larger live sets. -/
def Below (nodes others : List LiveNode) : Prop := List.Forall₂ LiveNode.Below nodes others

def total : List LiveNode → Nat
  | [] => 0
  | node :: rest => node.weight + total rest

theorem Below.refl (nodes : List LiveNode) : Below nodes nodes :=
  List.forall₂_same.mpr fun node _ => LiveNode.Below.refl node

theorem Below.trans {a b c : List LiveNode} (hab : Below a b) (hbc : Below b c) : Below a c := by
  induction hab generalizing c with
  | nil => exact hbc
  | cons h _ ih =>
    cases hbc with
    | cons h' hrest => exact .cons (h.trans h') (ih hrest)

theorem Below.total_le {nodes others : List LiveNode} (h : Below nodes others) :
    total nodes ≤ total others := by
  induction h with
  | nil => exact Nat.le_refl _
  | cons h _ ih => exact Nat.add_le_add h.weight_le ih

theorem Below.eq_of_total {nodes others : List LiveNode} (h : Below nodes others)
    (htotal : total nodes = total others) : nodes = others := by
  induction h with
  | nil => rfl
  | @cons node other rest rest' h hrest ih =>
    have hle := h.weight_le
    have hrestLe := Below.total_le hrest
    have hsum : node.weight + total rest = other.weight + total rest' := htotal
    rw [h.eq_of_weight (by omega), ih (by omega)]

theorem Below.map_outline {nodes others : List LiveNode} (h : Below nodes others) :
    nodes.map LiveNode.outline = others.map LiveNode.outline := by
  induction h with
  | nil => rfl
  | cons h _ ih => rw [List.map_cons, List.map_cons, h.outline_eq, ih]

-- ---------------------------------------------------------------------------
-- One visit
-- ---------------------------------------------------------------------------

theorem mem_liveInOf {nodes : List LiveNode} {id : Nat} {name : String} :
    name ∈ liveInOf nodes id ↔
      ∃ index node, id = index + 1 ∧ nodes[index]? = some node ∧ name ∈ node.liveIn := by
  constructor
  · intro hname
    unfold liveInOf at hname
    split at hname
    · next node hnode =>
      cases id with
      | zero => cases hnode
      | succ index => exact ⟨index, node, rfl, hnode, hname⟩
    · exact absurd hname (NameSet.not_mem_empty name)
  · rintro ⟨index, node, rfl, hnode, hname⟩
    simpa only [liveInOf, node?, hnode] using hname

@[simp] theorem mem_joined {nodes : List LiveNode} {ids : List Nat} {name : String} :
    name ∈ joined nodes ids ↔ ∃ id ∈ ids, name ∈ liveInOf nodes id := by
  have step : ∀ (ids : List Nat) (names : NameSet),
      name ∈ ids.foldl (fun names id => names ∪ liveInOf nodes id) names ↔
        name ∈ names ∨ ∃ id ∈ ids, name ∈ liveInOf nodes id := by
    intro ids
    induction ids with
    | nil => simp
    | cons id rest ih =>
      intro names
      rw [List.foldl_cons, ih, NameSet.mem_union, or_assoc]
      simp
  rw [joined, step]
  simp

theorem getElem?_visit {nodes : List LiveNode} {index : Nat} (j : Nat) :
    (visit nodes index)[j]? = nodes[j]?.map fun node =>
      if index = j then node.grown (joined (enterAt nodes index) node.succs) else node := by
  simp only [visit, leaveAt, enterAt, List.getElem?_modify]
  cases nodes[j]? with
  | none => rfl
  | some node =>
    simp only [Option.map_some]
    by_cases h : index = j
    · simp only [h, if_true]
      rfl
    · simp only [h, if_false]
      rfl

theorem length_visit (nodes : List LiveNode) (index : Nat) :
    (visit nodes index).length = nodes.length := by
  simp [visit, leaveAt, enterAt]

theorem below_visit (nodes : List LiveNode) (index : Nat) : Below nodes (visit nodes index) := by
  refine List.forall₂_iff_get.mpr ⟨(length_visit nodes index).symm, ?_⟩
  intro j hj hj'
  have hget := @getElem?_visit nodes index j
  rw [List.getElem?_eq_getElem hj, List.getElem?_eq_getElem hj'] at hget
  have hnode := Option.some.inj hget
  rw [List.get_eq_getElem, List.get_eq_getElem, hnode]
  split
  · exact LiveNode.below_grown _ _
  · exact LiveNode.Below.refl _

-- A visit that keeps the sizes of the two sets keeps the node, since the sets only grow.
theorem visit_of_not_grew {nodes : List LiveNode} {index : Nat}
    (h : grewAt nodes (visit nodes index) index = false) : visit nodes index = nodes := by
  refine List.ext_getElem? fun j => ?_
  rw [getElem?_visit]
  cases hget : nodes[j]? with
  | none => rfl
  | some node =>
    simp only [Option.map_some]
    split
    · next hj =>
      subst hj
      simp only [grewAt, getElem?_visit, hget, Option.map_some, if_true, Bool.or_eq_false_iff,
        bne_eq_false_iff_eq] at h
      have hbelow := node.below_grown (joined (enterAt nodes index) node.succs)
      rw [← hbelow.eq_of_weight (by unfold LiveNode.weight; omega)]
    · rfl

theorem total_lt_of_grew {nodes : List LiveNode} {index : Nat}
    (h : grewAt nodes (visit nodes index) index = true) : total nodes < total (visit nodes index) := by
  refine Nat.lt_of_le_of_ne (below_visit nodes index).total_le fun htotal => ?_
  rw [← (below_visit nodes index).eq_of_total htotal] at h
  simp only [grewAt] at h
  split at h
  · next old new hold hnew =>
    cases hold.symm.trans hnew
    simp at h
  · cases h

-- ---------------------------------------------------------------------------
-- Passes
-- ---------------------------------------------------------------------------

theorem below_visitAll (nodes : List LiveNode) (indices : List Nat) :
    Below nodes (visitAll nodes indices).1 := by
  induction indices generalizing nodes with
  | nil => exact .refl nodes
  | cons index rest ih => exact (below_visit nodes index).trans (ih _)

theorem visitAll_unchanged {nodes : List LiveNode} {indices : List Nat}
    (h : (visitAll nodes indices).2 = false) :
    (visitAll nodes indices).1 = nodes ∧ ∀ index ∈ indices, visit nodes index = nodes := by
  induction indices with
  | nil => exact ⟨rfl, by simp⟩
  | cons index rest ih =>
    simp only [visitAll, Bool.or_eq_false_iff] at h ⊢
    have hvisit := visit_of_not_grew h.1
    rw [hvisit] at h ⊢
    obtain ⟨hsame, hrest⟩ := ih h.2
    refine ⟨hsame, fun other hother => ?_⟩
    rcases List.mem_cons.mp hother with rfl | hother
    · exact hvisit
    · exact hrest other hother

theorem total_lt_of_changed {nodes : List LiveNode} {indices : List Nat}
    (h : (visitAll nodes indices).2 = true) : total nodes < total (visitAll nodes indices).1 := by
  induction indices generalizing nodes with
  | nil => cases h
  | cons index rest ih =>
    simp only [visitAll, Bool.or_eq_true] at h ⊢
    rcases h with hfirst | hrest
    · exact Nat.lt_of_lt_of_le (total_lt_of_grew hfirst) (below_visitAll _ rest).total_le
    · exact Nat.lt_of_le_of_lt (below_visit nodes index).total_le (ih hrest)

/-- The live sets keep within bounds, one for what is live before the node with a given number and one
for what is live after it, and the bounds leave room for all that a visit can add. -/
structure Within (before after : Nat → String → Prop) (nodes : List LiveNode) : Prop where
  liveIn : ∀ {index : Nat} {node : LiveNode} {name}, nodes[index]? = some node →
    name ∈ node.liveIn → before (index + 1) name
  liveOut : ∀ {index : Nat} {node : LiveNode} {name}, nodes[index]? = some node →
    name ∈ node.liveOut → after (index + 1) name
  of_use : ∀ {index : Nat} {node : LiveNode} {name}, nodes[index]? = some node →
    name ∈ node.uses → before (index + 1) name
  of_kept : ∀ {index : Nat} {node : LiveNode} {name}, nodes[index]? = some node →
    after (index + 1) name → name ∉ node.defs → before (index + 1) name
  of_succ : ∀ {index : Nat} {node : LiveNode} {name succ}, nodes[index]? = some node →
    succ ∈ node.succs → before succ name → after (index + 1) name

namespace Within

variable {before after : Nat → String → Prop} {nodes : List LiveNode}

theorem of_enter (h : Within before after nodes) {index : Nat} {node : LiveNode} {name : String}
    (hnode : nodes[index]? = some node) (hname : name ∈ node.enter.liveIn) :
    before (index + 1) name := by
  simp only [LiveNode.enter, NameSet.mem_union, NameSet.mem_sdiff] at hname
  rcases hname with hin | huse | ⟨hout, hdef⟩
  · exact h.liveIn hnode hin
  · exact h.of_use hnode huse
  · exact h.of_kept hnode (h.liveOut hnode hout) hdef

theorem of_liveInOf_enterAt (h : Within before after nodes) {index id : Nat} {name : String}
    (hname : name ∈ liveInOf (enterAt nodes index) id) : before id name := by
  obtain ⟨other, node, rfl, hnode, hlive⟩ := mem_liveInOf.mp hname
  rw [enterAt, List.getElem?_modify] at hnode
  obtain ⟨old, hold, rfl⟩ := Option.map_eq_some_iff.mp hnode
  split at hlive
  · exact h.of_enter hold hlive
  · exact h.liveIn hold hlive

theorem visit (h : Within before after nodes) (index : Nat) :
    Within before after (Liveness.visit nodes index) := by
  -- A visited node is an old one, with its sets grown if it is the one at `index`.
  have hold : ∀ {j : Nat} {node : LiveNode}, (Liveness.visit nodes index)[j]? = some node →
      ∃ old, nodes[j]? = some old ∧
        node = if index = j then old.grown (joined (enterAt nodes index) old.succs) else old := by
    intro j node hnode
    rw [getElem?_visit] at hnode
    obtain ⟨old, hget, heq⟩ := Option.map_eq_some_iff.mp hnode
    exact ⟨old, hget, heq.symm⟩
  refine ⟨?_, ?_, ?_, ?_, ?_⟩
  · intro j node name hnode hname
    obtain ⟨old, hget, rfl⟩ := hold hnode
    split at hname
    · exact h.of_enter hget hname
    · exact h.liveIn hget hname
  · intro j node name hnode hname
    obtain ⟨old, hget, rfl⟩ := hold hnode
    split at hname
    · rcases NameSet.mem_union.mp hname with hout | hjoined
      · exact h.liveOut hget hout
      · obtain ⟨succ, hsucc, hlive⟩ := mem_joined.mp hjoined
        exact h.of_succ hget hsucc (h.of_liveInOf_enterAt hlive)
    · exact h.liveOut hget hname
  · intro j node name hnode huse
    obtain ⟨old, hget, rfl⟩ := hold hnode
    refine h.of_use hget ?_
    split at huse <;> exact huse
  · intro j node name hnode hout hdef
    obtain ⟨old, hget, rfl⟩ := hold hnode
    refine h.of_kept hget hout ?_
    split at hdef <;> exact hdef
  · intro j node name succ hnode hsucc hlive
    obtain ⟨old, hget, rfl⟩ := hold hnode
    refine h.of_succ hget ?_ hlive
    split at hsucc <;> exact hsucc

theorem visitAll (h : Within before after nodes) (indices : List Nat) :
    Within before after (Liveness.visitAll nodes indices).1 := by
  induction indices generalizing nodes with
  | nil => exact h
  | cons index rest ih => exact ih (h.visit index)

end Within

theorem total_le {names : NameSet} {nodes : List LiveNode}
    (h : ∀ node ∈ nodes, node.liveIn ⊆ names ∧ node.liveOut ⊆ names) :
    total nodes ≤ 2 * nodes.length * names.size := by
  induction nodes with
  | nil => exact Nat.zero_le _
  | cons node rest ih =>
    have hrest := ih fun other hother => h other (List.mem_cons_of_mem _ hother)
    obtain ⟨hin, hout⟩ := h node List.mem_cons_self
    have hinSize := NameSet.size_le_of_subset hin
    have houtSize := NameSet.size_le_of_subset hout
    have htotal : total (node :: rest) = node.liveIn.size + node.liveOut.size + total rest := rfl
    have hbound : 2 * (node :: rest).length * names.size
        = 2 * rest.length * names.size + 2 * names.size := by
      rw [List.length_cons, Nat.mul_add, Nat.add_mul]
    omega

/-- The sets of the nodes hold no name outside of `names`. -/
def Among (names : NameSet) (nodes : List LiveNode) : Prop :=
  Within (fun _ => (· ∈ names)) (fun _ => (· ∈ names)) nodes

theorem Among.total_le {names : NameSet} {nodes : List LiveNode} (h : Among names nodes) :
    total nodes ≤ 2 * nodes.length * names.size := by
  refine Liveness.total_le fun node hnode => ?_
  obtain ⟨index, hindex⟩ := List.mem_iff_getElem?.mp hnode
  exact ⟨fun _ hname => h.liveIn hindex hname, fun _ hname => h.liveOut hindex hname⟩

theorem among_allNames (nodes : List LiveNode) : Among (allNames nodes) nodes := by
  have step : ∀ (nodes : List LiveNode) (names : NameSet) (name : String),
      name ∈ nodes.foldl (fun names node =>
          names ∪ node.defs ∪ node.uses ∪ node.liveIn ∪ node.liveOut) names ↔
        name ∈ names ∨ ∃ node ∈ nodes,
          name ∈ node.defs ∨ name ∈ node.uses ∨ name ∈ node.liveIn ∨ name ∈ node.liveOut := by
    intro nodes
    induction nodes with
    | nil => simp
    | cons node rest ih =>
      intro names name
      rw [List.foldl_cons, ih]
      simp only [NameSet.mem_union, or_assoc, List.exists_mem_cons_iff]
  have mem_of : ∀ {index : Nat} {node : LiveNode} {name : String}, nodes[index]? = some node →
      name ∈ node.defs ∨ name ∈ node.uses ∨ name ∈ node.liveIn ∨ name ∈ node.liveOut →
      name ∈ allNames nodes :=
    fun hnode hname => (step nodes ∅ _).mpr (.inr ⟨_, List.mem_of_getElem? hnode, hname⟩)
  exact ⟨fun hnode hname => mem_of hnode (.inr (.inr (.inl hname))),
    fun hnode hname => mem_of hnode (.inr (.inr (.inr hname))),
    fun hnode hname => mem_of hnode (.inr (.inl hname)), fun _ hname _ => hname,
    fun _ _ hname => hname⟩

-- ---------------------------------------------------------------------------
-- The settled sets
-- ---------------------------------------------------------------------------

/-- The live sets satisfy the equations of liveness, as inclusions from right to left. -/
structure Closed (nodes : List LiveNode) : Prop where
  of_use : ∀ {index : Nat} {node : LiveNode} {name}, nodes[index]? = some node →
    name ∈ node.uses → name ∈ node.liveIn
  of_kept : ∀ {index : Nat} {node : LiveNode} {name}, nodes[index]? = some node →
    name ∈ node.liveOut → name ∉ node.defs → name ∈ node.liveIn
  of_succ : ∀ {index : Nat} {node : LiveNode} {name succ}, nodes[index]? = some node →
    succ ∈ node.succs → name ∈ liveInOf nodes succ → name ∈ node.liveOut

theorem closed_of_unchanged {nodes : List LiveNode} (h : (pass nodes).2 = false) : Closed nodes := by
  obtain ⟨-, hfixed⟩ := visitAll_unchanged h
  have hgrown : ∀ {index : Nat} {node : LiveNode}, nodes[index]? = some node →
      node.grown (joined (enterAt nodes index) node.succs) = node := by
    intro index node hget
    have hlt := (List.getElem?_eq_some_iff.mp hget).1
    have hvisit := @getElem?_visit nodes index index
    rw [hfixed index (List.mem_range.mpr hlt), hget] at hvisit
    simpa using hvisit.symm
  have henter : ∀ {index : Nat} {node : LiveNode}, nodes[index]? = some node →
      node.enter.liveIn = node.liveIn := by
    intro index node hget
    have hliveIn := congrArg LiveNode.liveIn (hgrown hget)
    exact hliveIn
  refine ⟨?_, ?_, ?_⟩
  · intro index node name hget huse
    rw [← henter hget]
    exact NameSet.mem_union.mpr (.inr (NameSet.mem_union.mpr (.inl huse)))
  · intro index node name hget hout hdef
    rw [← henter hget]
    refine NameSet.mem_union.mpr (.inr (NameSet.mem_union.mpr (.inr ?_)))
    exact NameSet.mem_sdiff.mpr ⟨hout, hdef⟩
  · intro index node name succ hget hsucc hname
    -- Nothing enters at this node any more, so its successors were read as they are.
    have hsame : enterAt nodes index = nodes := by
      refine List.ext_getElem? fun j => ?_
      rw [enterAt, List.getElem?_modify]
      cases hj : nodes[j]? with
      | none => rfl
      | some other =>
        have : other.enter = other := by
          unfold LiveNode.enter
          rw [show other.liveIn ∪ (other.uses ∪ other.liveOut \ other.defs) = other.liveIn from
            henter hj]
        simp [this]
    have hout := congrArg LiveNode.liveOut (hgrown hget)
    rw [hsame] at hout
    rw [← hout]
    exact NameSet.mem_union.mpr (.inr (mem_joined.mpr ⟨succ, hsucc, hname⟩))

-- What a pass that changes something leaves is nearer to the bound by one name at least.
theorem settleWithin_induction {motive : List LiveNode → List LiveNode → Prop}
    (done : ∀ {nodes}, (pass nodes).2 = false → motive nodes nodes)
    (again : ∀ {nodes after}, (pass nodes).2 = true → motive (pass nodes).1 after → motive nodes after)
    {fuel : Nat} {names : NameSet} {nodes : List LiveNode} (h : Among names nodes)
    (hfuel : 2 * nodes.length * names.size < total nodes + fuel) :
    motive nodes (settleWithin fuel nodes) := by
  induction fuel generalizing nodes with
  | zero =>
    have := h.total_le
    omega
  | succ fuel ih =>
    simp only [settleWithin]
    split
    · next changed =>
      have hlt := total_lt_of_changed changed
      have hlength : (pass nodes).1.length = nodes.length :=
        (below_visitAll nodes (List.range nodes.length)).length_eq.symm
      refine again changed (ih (h.visitAll _) ?_)
      rw [hlength]
      unfold pass at hlt ⊢
      omega
    · next unchanged =>
      have hunchanged : (pass nodes).2 = false := by simpa using unchanged
      rw [show (pass nodes).1 = nodes from (visitAll_unchanged hunchanged).1]
      exact done hunchanged

/-- The passes that `settle` allows are enough: it ends with one that changes nothing. -/
theorem settle_induction {motive : List LiveNode → List LiveNode → Prop}
    (done : ∀ {nodes}, (pass nodes).2 = false → motive nodes nodes)
    (again : ∀ {nodes after}, (pass nodes).2 = true → motive (pass nodes).1 after → motive nodes after)
    (nodes : List LiveNode) : motive nodes (settle nodes) := by
  refine settleWithin_induction done again (among_allNames nodes) ?_
  unfold passBound
  omega

theorem below_settle (nodes : List LiveNode) : Below nodes (settle nodes) :=
  settle_induction (motive := Below) (fun _ => .refl _)
    (fun _ hafter => (below_visitAll _ _).trans hafter) nodes

theorem closed_settle (nodes : List LiveNode) : Closed (settle nodes) :=
  settle_induction (motive := fun _ after => Closed after) closed_of_unchanged (fun _ hafter => hafter)
    nodes

end Liveness

open Liveness (Closed)

theorem Method.closed_liveness (method : Method) : Closed method.liveness :=
  Liveness.closed_settle _

theorem Method.below_liveness (method : Method) :
    Liveness.Below (method.instructions.map Instruction.liveNode) method.liveness :=
  Liveness.below_settle _

theorem Method.length_liveness (method : Method) :
    method.liveness.length = method.instructions.length :=
  method.below_liveness.length_eq.symm.trans (List.length_map _)

/-- The node of an instruction keeps what the instruction defines and uses and where it leads. -/
theorem Method.getElem?_liveness {method : Method} {index : Nat} {inst : Instruction}
    (h : method.instructions[index]? = some inst) :
    ∃ node, method.liveness[index]? = some node ∧ node.outline = inst.liveNode.outline := by
  have houtline := congrArg (·[index]?) method.below_liveness.map_outline
  simp only [List.getElem?_map, h, Option.map_some] at houtline
  obtain ⟨node, hnode, heq⟩ := Option.map_eq_some_iff.mp houtline.symm
  exact ⟨node, hnode, heq⟩

/-- The settled node of an instruction. -/
theorem Method.exists_node {method : Method} {id : Nat} {inst : Instruction}
    (h : method.instruction? id = some inst) :
    ∃ (index : Nat) (node : LiveNode), method.liveness[index]? = some node ∧
      Liveness.liveInOf method.liveness id = node.liveIn ∧
      (∀ name, name ∈ node.defs ↔ name ∈ inst.statement.defs) ∧
      (∀ name, name ∈ node.uses ↔ name ∈ inst.statement.uses) ∧ node.succs = inst.nextIds := by
  cases id with
  | zero => cases h
  | succ index =>
    obtain ⟨node, hnode, houtline⟩ := getElem?_liveness h
    have hdefs : node.defs = .ofList inst.statement.defs := congrArg LiveNode.defs houtline
    have huses : node.uses = .ofList inst.statement.uses := congrArg LiveNode.uses houtline
    have hsuccs : node.succs = inst.nextIds := congrArg LiveNode.succs houtline
    refine ⟨index, node, hnode, ?_, fun name => ?_, fun name => ?_, hsuccs⟩
    · simp only [Liveness.liveInOf, Liveness.node?, hnode]
    · rw [hdefs, NameSet.mem_ofList]
    · rw [huses, NameSet.mem_ofList]

theorem Instruction.mem_nextIds {inst : Instruction} {id : Nat} :
    id ∈ inst.nextIds ↔ .instruction id ∈ inst.successors := by
  simp only [nextIds, List.mem_filterMap]
  constructor
  · rintro ⟨succ, hsucc, hid⟩
    cases succ with
    | instruction other =>
      cases hid
      exact hsucc
    | exit => cases hid
  · exact fun h => ⟨_, h, rfl⟩

end ThreeAddress
