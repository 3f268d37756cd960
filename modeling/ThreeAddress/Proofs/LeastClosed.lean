import ThreeAddress.Proofs.ExactLiveness

/-!
# Passes end at the least closed sets

Passes may start from any live sets, also from ones that solve nothing. A pass says that nothing changed
exactly if nothing did (`Liveness.pass_unchanged_iff`), and passes come to such a one. Any closed sets
above those at the start bound every visit (`Liveness.Below.within`), so the sets at the end are below all
of them, in whatever order the nodes were visited. `Liveness.settles_least` is the main statement.
-/

namespace ThreeAddress

namespace LiveNode.Below

variable {node other : LiveNode}

theorem defs_eq (h : node.Below other) : node.defs = other.defs :=
  (congrArg LiveNode.defs h.outline_eq :)

theorem uses_eq (h : node.Below other) : node.uses = other.uses :=
  (congrArg LiveNode.uses h.outline_eq :)

theorem succs_eq (h : node.Below other) : node.succs = other.succs :=
  (congrArg LiveNode.succs h.outline_eq :)

end LiveNode.Below

namespace Liveness

variable {nodes others : List LiveNode}

theorem complete_of_bounded
    (bounded : ∀ node ∈ nodes, ∀ succ ∈ node.succs, 1 ≤ succ ∧ succ ≤ nodes.length) :
    Complete nodes := by
  intro node hnode succ hsucc
  obtain ⟨hpos, hle⟩ := bounded node hnode succ hsucc
  cases succ with
  | zero => cases hpos
  | succ index => exact ⟨_, List.getElem?_eq_getElem hle⟩

/-- Sizes are enough to tell whether a pass has changed anything. -/
theorem pass_unchanged_iff : (pass nodes).2 = false ↔ (pass nodes).1 = nodes := by
  constructor
  · intro unchanged
    exact (visitAll_unchanged unchanged).1
  · intro same
    cases hchanged : (pass nodes).2 with
    | false => rfl
    | true =>
      have hlt : total nodes < total (pass nodes).1 := total_lt_of_changed hchanged
      rw [same] at hlt
      exact absurd hlt (Nat.lt_irrefl _)

theorem Below.getElem? (h : Below nodes others) {index : Nat} {node : LiveNode}
    (hnode : nodes[index]? = some node) :
    ∃ other, others[index]? = some other ∧ node.Below other := by
  obtain ⟨hlt, rfl⟩ := List.getElem?_eq_some_iff.mp hnode
  have hlt' : index < others.length := h.length_eq ▸ hlt
  exact ⟨others[index], List.getElem?_eq_getElem hlt', h.get hlt hlt'⟩

theorem mem_liveOutOf {id : Nat} {name : String} :
    name ∈ liveOutOf nodes id ↔
      ∃ index node, id = index + 1 ∧ nodes[index]? = some node ∧ name ∈ node.liveOut := by
  constructor
  · intro hname
    unfold liveOutOf at hname
    split at hname
    · next node hnode =>
      cases id with
      | zero => cases hnode
      | succ index => exact ⟨index, node, rfl, hnode, hname⟩
    · exact absurd hname (NameSet.not_mem_empty name)
  · rintro ⟨index, node, rfl, hnode, hname⟩
    simpa only [liveOutOf, node?, hnode] using hname

/-- Closed sets leave room for all that a visit can add to smaller ones. -/
theorem Below.within (h : Below nodes others) (closed : Closed others) :
    Within (fun id name => name ∈ liveInOf others id) (fun id name => name ∈ liveOutOf others id)
      nodes := by
  refine ⟨?_, ?_, ?_, ?_, ?_⟩
  · intro index node name hnode hname
    obtain ⟨other, hother, hbelow⟩ := h.getElem? hnode
    exact mem_liveInOf.mpr ⟨index, other, rfl, hother, hbelow.liveIn_subset name hname⟩
  · intro index node name hnode hname
    obtain ⟨other, hother, hbelow⟩ := h.getElem? hnode
    exact mem_liveOutOf.mpr ⟨index, other, rfl, hother, hbelow.liveOut_subset name hname⟩
  · intro index node name hnode huse
    obtain ⟨other, hother, hbelow⟩ := h.getElem? hnode
    exact mem_liveInOf.mpr ⟨index, other, rfl, hother, closed.of_use hother (hbelow.uses_eq ▸ huse)⟩
  · intro index node name hnode hafter hdef
    obtain ⟨other, hother, hbelow⟩ := h.getElem? hnode
    obtain ⟨_, found, ⟨⟩, hfound, hout⟩ := mem_liveOutOf.mp hafter
    cases hother.symm.trans hfound
    have hkept := closed.of_kept hother hout (hbelow.defs_eq ▸ hdef)
    exact mem_liveInOf.mpr ⟨index, other, rfl, hother, hkept⟩
  · intro index node name succ hnode hsucc hbefore
    obtain ⟨other, hother, hbelow⟩ := h.getElem? hnode
    have hout := closed.of_succ hother (hbelow.succs_eq ▸ hsucc) hbefore
    exact mem_liveOutOf.mpr ⟨index, other, rfl, hother, hout⟩

/-- The same nodes with sets that keep within those of `others` are below them. -/
theorem Within.below (h : Within (fun id name => name ∈ liveInOf others id)
    (fun id name => name ∈ liveOutOf others id) nodes)
    (same : nodes.map LiveNode.outline = others.map LiveNode.outline) : Below nodes others := by
  have hlength : nodes.length = others.length := by simpa using congrArg List.length same
  refine List.forall₂_iff_get.mpr ⟨hlength, fun index hlt hlt' => ?_⟩
  have hnode := List.getElem?_eq_getElem hlt
  have hother := List.getElem?_eq_getElem hlt'
  refine ⟨?_, fun name hname => ?_, fun name hname => ?_⟩
  · have houtline := congrArg (·[index]?) same
    simpa [List.getElem?_map, hnode, hother] using houtline
  · obtain ⟨_, found, ⟨⟩, hfound, hin⟩ := mem_liveInOf.mp (h.liveIn hnode hname)
    cases hother.symm.trans hfound
    exact hin
  · obtain ⟨_, found, ⟨⟩, hfound, hout⟩ := mem_liveOutOf.mp (h.liveOut hnode hname)
    cases hother.symm.trans hfound
    exact hout

theorem settle_below (h : Below nodes others) (closed : Closed others) :
    Below (settle nodes) others :=
  (h.within closed).settle.below ((below_settle nodes).map_outline.symm.trans h.map_outline)

/-- A pass over settled nodes changes nothing. -/
theorem pass_settle (nodes : List LiveNode) : pass (settle nodes) = (settle nodes, false) := by
  have stable : (pass (settle nodes)).2 = false :=
    settle_induction (motive := fun _ settled => (pass settled).2 = false) (fun unchanged => unchanged)
      (fun _ stable => stable) nodes
  exact Prod.ext (pass_unchanged_iff.mp stable) stable

/-- From any sets, a pass succeeds and says that nothing changed exactly if nothing did, and passes come
to one that says so. The sets they leave contain those at the start and are closed, and all closed sets
that contain those at the start contain them. -/
theorem settles_least
    (bounded : ∀ node ∈ nodes, ∀ succ ∈ node.succs, 1 ≤ succ ∧ succ ≤ nodes.length) :
    (∃ after changed, checkedPass nodes = .ok (after, changed) ∧ (changed = false ↔ after = nodes)) ∧
      Settles nodes (settle nodes) ∧ checkedPass (settle nodes) = .ok (settle nodes, false) ∧
      Below nodes (settle nodes) ∧ Closed (settle nodes) ∧
      ∀ others, Below nodes others → Closed others → Below (settle nodes) others := by
  have complete := complete_of_bounded bounded
  refine ⟨⟨_, _, checkedPass_of_complete complete, pass_unchanged_iff⟩, settles_settle complete, ?_,
    below_settle nodes, closed_settle nodes, fun _ => settle_below⟩
  rw [checkedPass_of_complete (complete.of_below (below_settle nodes)), pass_settle]

end Liveness

/-- Two nodes that follow one another, with sets that no pass from empty ones would reach: the first has
`stale` after it for no reason, and the second `lost` before it although it defines that itself. -/
def arbitraryNodes : List LiveNode :=
  [{ id := 1, defs := .ofList ["a"], uses := .ofList ["b"], liveIn := ∅,
     liveOut := .ofList ["a", "stale"], succs := [2] },
   { id := 2, defs := .ofList ["b", "lost"], uses := .ofList ["a"], liveIn := .ofList ["lost"],
     liveOut := ∅, succs := [1, 2] }]

open Liveness (Settles Below Closed settle settles_least)

/-- What was there at the start stays and spreads, and nothing comes to it but what is used. -/
theorem settles_least_arbitrary :
    Settles arbitraryNodes (settle arbitraryNodes) ∧ Closed (settle arbitraryNodes) ∧
      (∀ others, Below arbitraryNodes others → Closed others → Below (settle arbitraryNodes) others) ∧
      (settle arbitraryNodes).map (fun node => (node.liveIn.names, node.liveOut.names)) =
        [(["b", "lost", "stale"], ["a", "lost", "stale"]),
         (["a", "lost", "stale"], ["a", "b", "lost", "stale"])] := by
  obtain ⟨-, settles, -, -, closed, least⟩ := @settles_least arbitraryNodes (by decide)
  exact ⟨settles, closed, least, by decide +kernel⟩

end ThreeAddress
