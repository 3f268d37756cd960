import ThreeAddress.Picture
import ThreeAddress.Proofs.ExactLiveness
import ThreeAddress.Proofs.GraphHistory
import ThreeAddress.Proofs.Independence

/-!
# Pictures show the interference graphs

The nodes of a picture are numbered through all methods of a class. `Picture.spots` lists what they stand for:
each is a vertex of the graph of one method, which is given by its place, since methods may be equal. Adding a
method puts its vertices behind all others and shifts its edges by as much, so that no edge leads from one
method to another (`Shows.addMethod`). `Picture.depicts_ofClass` says what follows for the picture of a class:
its nodes are the vertices in order, its edges are those of the graphs, and each node names the register of its
variable, since every vertex is a variable of the body (`Method.Declares.mem_keys_of_vertex`).
-/

namespace ThreeAddress

-- ---------------------------------------------------------------------------
-- Every vertex is a variable
-- ---------------------------------------------------------------------------

namespace Method

variable {method : Method} {name : String}

theorem exists_instruction_of_node {index : Nat} {node : LiveNode}
    (h : method.liveness[index]? = some node) :
    ∃ inst, method.instructions[index]? = some inst ∧ node.outline = inst.liveNode.outline := by
  have houtline := congrArg (·[index]?) method.below_liveness.map_outline
  simp only [List.getElem?_map, h, Option.map_some, Option.map_map] at houtline
  obtain ⟨inst, hinst, heq⟩ := Option.map_eq_some_iff.mp houtline
  exact ⟨inst, hinst, heq.symm⟩

theorem Declares.within (h : method.Declares) :
    Liveness.Within (fun _ name => name ∈ method.vars.keys) (fun _ name => name ∈ method.vars.keys)
      (method.instructions.map Instruction.liveNode) := by
  have hinst : ∀ {index : Nat} {node : LiveNode},
      (method.instructions.map Instruction.liveNode)[index]? = some node →
      ∃ inst ∈ method.instructions, node = inst.liveNode := by
    intro index node hnode
    obtain ⟨inst, hinst, rfl⟩ := List.mem_map.mp (List.mem_of_getElem? hnode)
    exact ⟨inst, hinst, rfl⟩
  refine ⟨?_, ?_, ?_, fun _ hafter _ => hafter, fun _ _ hbefore => hbefore⟩
  · intro index node name hnode hname
    obtain ⟨inst, -, rfl⟩ := hinst hnode
    exact absurd hname (NameSet.not_mem_empty name)
  · intro index node name hnode hname
    obtain ⟨inst, -, rfl⟩ := hinst hnode
    exact absurd hname (NameSet.not_mem_empty name)
  · intro index node name hnode huse
    obtain ⟨inst, hmem, rfl⟩ := hinst hnode
    exact h inst hmem name (.inr (NameSet.mem_ofList.mp huse))

/-- What a vertex stands for is live somewhere or is given a value where another variable is live. -/
theorem Declares.mem_keys_of_vertex (h : method.Declares) (hname : name ∈ method.interference.vertices) :
    name ∈ method.vars.keys := by
  have bounds : Liveness.Within _ _ method.liveness := h.within.settle
  obtain ⟨other, hother⟩ := noneAlone_interference method.liveness name hname
  obtain ⟨-, node, hnode, hconflict⟩ := mem_neighbours_interference.mp hother
  obtain ⟨index, hindex⟩ := List.mem_iff_getElem?.mp hnode
  rcases hconflict with ⟨hin, -⟩ | ⟨-, hdef | hout⟩
  · exact bounds.liveIn hindex hin
  · obtain ⟨inst, hinst, houtline⟩ := exists_instruction_of_node hindex
    have hdefs : node.defs = .ofList inst.statement.defs := congrArg LiveNode.defs houtline
    rw [hdefs, NameSet.mem_ofList] at hdef
    exact h inst (List.mem_of_getElem? hinst) name (.inl hdef)
  · exact bounds.liveOut hindex hout

end Method

theorem ClassUnit.Arranged.declares {unit : ClassUnit} (h : unit.Arranged) :
    ∀ method ∈ unit.methods, method.Declares := by
  intro method hmethod
  obtain ⟨draft, built, registers, hbuild, rfl⟩ := h method hmethod
  exact (Draft.declares_of_build hbuild).mapVars _

namespace Picture

-- ---------------------------------------------------------------------------
-- What the nodes stand for
-- ---------------------------------------------------------------------------

/-- A vertex of the graph of a method, with the place of the method in its class. -/
structure Spot where
  place : Nat
  method : Method
  name : String
  deriving DecidableEq, Repr

namespace Spot

def label (spot : Spot) : String := nodeLabel spot.method spot.name

/-- The two are vertices of one method and are joined there. -/
def Joined (spot other : Spot) : Prop :=
  spot.place = other.place ∧ spot.method.interference.hasEdge spot.name other.name = true

/-- Methods go by their places, and the vertices of a method by the order of its graph. -/
def Before (spot other : Spot) : Prop :=
  spot.place < other.place ∨ spot.place = other.place ∧
    spot.method.interference.vertices.idxOf spot.name < spot.method.interference.vertices.idxOf other.name

end Spot

/-- The vertices of one method. -/
def spotsAt (method : Method) (place : Nat) : List Spot :=
  method.interference.vertices.map fun name => { place, method, name }

/-- The vertices of all methods, in order. -/
def spots (methods : List Method) : List Spot :=
  methods.zipIdx.flatMap fun (method, place) => spotsAt method place

variable {method : Method} {methods : List Method} {picture : Picture} {spot : Spot} {place : Nat}

theorem spots_snoc (methods : List Method) (method : Method) :
    spots (methods ++ [method]) = spots methods ++ spotsAt method methods.length := by
  simp [spots, List.zipIdx_append]

theorem mem_spotsAt :
    spot ∈ spotsAt method place ↔
      spot.place = place ∧ spot.method = method ∧ spot.name ∈ method.interference.vertices := by
  obtain ⟨place', method', name⟩ := spot
  simp only [spotsAt, List.mem_map, Spot.mk.injEq]
  constructor
  · rintro ⟨_, hname, rfl, rfl, rfl⟩
    exact ⟨rfl, rfl, hname⟩
  · rintro ⟨rfl, rfl, hname⟩
    exact ⟨name, hname, rfl, rfl, rfl⟩

theorem mem_spots :
    spot ∈ spots methods ↔ methods[spot.place]? = some spot.method ∧
      spot.name ∈ spot.method.interference.vertices := by
  simp only [spots, List.mem_flatMap, mem_spotsAt, Prod.exists, List.mk_mem_zipIdx_iff_getElem?]
  constructor
  · rintro ⟨method, place, hmethod, rfl, rfl, hname⟩
    exact ⟨hmethod, hname⟩
  · rintro ⟨hmethod, hname⟩
    exact ⟨_, _, hmethod, rfl, rfl, hname⟩

theorem place_lt_of_mem_spots (h : spot ∈ spots methods) : spot.place < methods.length :=
  (List.getElem?_eq_some_iff.mp (mem_spots.mp h).1).1

/-- A vertex of a further method is joined to none before it, be the methods equal or not. -/
theorem not_joined_spotsAt {other : Spot} (hspot : spot ∈ spots methods)
    (hother : other ∈ spotsAt method methods.length) : ¬ spot.Joined other := by
  rintro ⟨hplace, -⟩
  have hlt := place_lt_of_mem_spots hspot
  rw [hplace, (mem_spotsAt.mp hother).1] at hlt
  exact Nat.lt_irrefl _ hlt

theorem ordered_spotsAt (method : Method) (place : Nat) : (spotsAt method place).Pairwise Spot.Before := by
  have nodup := method.interference.vertices_nodup
  rw [spotsAt, List.pairwise_map, List.pairwise_iff_getElem]
  intro i j hi hj hlt
  refine .inr ⟨rfl, ?_⟩
  simpa [nodup.idxOf_getElem] using hlt

theorem ordered_spots (methods : List Method) : (spots methods).Pairwise Spot.Before := by
  rw [spots, List.pairwise_flatMap, List.pairwise_iff_getElem]
  refine ⟨fun entry _ => ordered_spotsAt entry.1 entry.2, ?_⟩
  intro i j hi hj hlt spot hspot other hother
  rw [List.getElem_zipIdx, mem_spotsAt] at hspot hother
  refine .inl ?_
  rw [hspot.1, hother.1]
  omega

theorem nodup_spots (methods : List Method) : (spots methods).Nodup := by
  refine (ordered_spots methods).imp ?_
  rintro spot _ (hplace | ⟨-, hname⟩) rfl
  · exact Nat.lt_irrefl _ hplace
  · exact Nat.lt_irrefl _ hname

-- ---------------------------------------------------------------------------
-- Which nodes are joined
-- ---------------------------------------------------------------------------

/-- Two nodes, the one with the smaller number first, stand for vertices that are joined. -/
def Joins (spots : List Spot) (node other : Nat) : Prop :=
  node < other ∧ ∃ spot spot', spots[node]? = some spot ∧ spots[other]? = some spot' ∧ spot.Joined spot'

/-- Nodes that are added behind others shift by the number of these. -/
theorem joins_append {old new : List Spot} {node other : Nat}
    (apart : ∀ spot ∈ old, ∀ spot' ∈ new, ¬ spot.Joined spot') :
    Joins (old ++ new) node other ↔ Joins old node other ∨
      ∃ i j, node = old.length + i ∧ other = old.length + j ∧ Joins new i j := by
  constructor
  · rintro ⟨hlt, spot, spot', hspot, hspot', joined⟩
    by_cases hother : other < old.length
    · rw [List.getElem?_append_left hother] at hspot'
      rw [List.getElem?_append_left (Nat.lt_trans hlt hother)] at hspot
      exact .inl ⟨hlt, spot, spot', hspot, hspot', joined⟩
    · rw [List.getElem?_append_right (Nat.le_of_not_lt hother)] at hspot'
      by_cases hnode : node < old.length
      · rw [List.getElem?_append_left hnode] at hspot
        exact absurd joined (apart _ (List.mem_of_getElem? hspot) _ (List.mem_of_getElem? hspot'))
      · rw [List.getElem?_append_right (Nat.le_of_not_lt hnode)] at hspot
        exact .inr ⟨node - old.length, other - old.length, by omega, by omega, by omega, spot, spot', hspot,
          hspot', joined⟩
  · rintro (⟨hlt, spot, spot', hspot, hspot', joined⟩ |
      ⟨i, j, rfl, rfl, hlt, spot, spot', hspot, hspot', joined⟩)
    · have hother : other < old.length := (List.getElem?_eq_some_iff.mp hspot').1
      refine ⟨hlt, spot, spot', ?_, ?_, joined⟩
      · rwa [List.getElem?_append_left (Nat.lt_trans hlt hother)]
      · rwa [List.getElem?_append_left hother]
    · refine ⟨Nat.add_lt_add_left hlt _, spot, spot', ?_, ?_, joined⟩
      · rwa [List.getElem?_append_right (Nat.le_add_right _ _), Nat.add_sub_cancel_left]
      · rwa [List.getElem?_append_right (Nat.le_add_right _ _), Nat.add_sub_cancel_left]

/-- Among the vertices of one method the nodes that are joined are those of its edges. -/
theorem joins_spotsAt {i j : Nat} :
    Joins (spotsAt method place) i j ↔ ∃ a b, (a, b) ∈ method.interference.edges ∧
      method.interference.vertices.idxOf a = i ∧ method.interference.vertices.idxOf b = j := by
  have nodup := method.interference.vertices_nodup
  have proper : method.interference.Proper := proper_interference _
  simp only [Joins, spotsAt, List.getElem?_map, Option.map_eq_some_iff]
  constructor
  · rintro ⟨hlt, _, _, ⟨a, ha, rfl⟩, ⟨b, hb, rfl⟩, -, hedge⟩
    obtain ⟨hi, rfl⟩ := List.getElem?_eq_some_iff.mp ha
    obtain ⟨hj, rfl⟩ := List.getElem?_eq_some_iff.mp hb
    refine ⟨_, _, (InterferenceGraph.mem_edges_iff proper).mpr ⟨hedge, ?_⟩, nodup.idxOf_getElem i hi,
      nodup.idxOf_getElem j hj⟩
    simpa [nodup.idxOf_getElem] using hlt
  · rintro ⟨a, b, hin, rfl, rfl⟩
    obtain ⟨hedge, hlt⟩ := (InterferenceGraph.mem_edges_iff proper).mp hin
    obtain ⟨ha, hb⟩ := InterferenceGraph.mem_vertices_of_mem_edges proper hin
    exact ⟨hlt, _, _, ⟨a, List.getElem?_idxOf ha, rfl⟩, ⟨b, List.getElem?_idxOf hb, rfl⟩, rfl, hedge⟩

/-- Vertices of one method are joined both ways or not at all, and none is joined to itself. -/
theorem joins_or_joins_iff {node other : Nat} {spot spot' : Spot}
    (hspot : (spots methods)[node]? = some spot) (hspot' : (spots methods)[other]? = some spot') :
    Joins (spots methods) node other ∨ Joins (spots methods) other node ↔ spot.Joined spot' := by
  have hmethod := (mem_spots.mp (List.mem_of_getElem? hspot)).1
  have hmethod' := (mem_spots.mp (List.mem_of_getElem? hspot')).1
  have proper : spot.method.interference.Proper := proper_interference _
  constructor
  · rintro (⟨-, found, found', hfound, hfound', joined⟩ |
      ⟨-, found', found, hfound', hfound, hplace, hedge⟩)
    · cases hspot.symm.trans hfound
      cases hspot'.symm.trans hfound'
      exact joined
    · cases hspot.symm.trans hfound
      cases hspot'.symm.trans hfound'
      rw [hplace, hmethod, Option.some.injEq] at hmethod'
      rw [← hmethod', InterferenceGraph.hasEdge_iff] at hedge
      exact ⟨hplace.symm, InterferenceGraph.hasEdge_iff.mpr (proper.symm hedge)⟩
  · rintro ⟨hplace, hedge⟩
    have hn := InterferenceGraph.hasEdge_iff.mp hedge
    rw [← hplace, hmethod, Option.some.injEq] at hmethod'
    rcases Nat.lt_trichotomy node other with hlt | rfl | hlt
    · exact .inl ⟨hlt, spot, spot', hspot, hspot', hplace, hedge⟩
    · cases hspot.symm.trans hspot'
      exact absurd hn (proper.irrefl _)
    · refine .inr ⟨hlt, spot', spot, hspot', hspot, hplace.symm, ?_⟩
      rw [← hmethod']
      exact InterferenceGraph.hasEdge_iff.mpr (proper.symm hn)

/-- The ends of an edge are found among the vertices, so no edge gets lost. -/
theorem numberedEdges_eq {graph : InterferenceGraph} (proper : graph.Proper) (first : Nat) :
    numberedEdges graph first = graph.edges.map fun (a, b) =>
      (first + graph.vertices.idxOf a, first + graph.vertices.idxOf b) := by
  have found : ∀ {name}, name ∈ graph.vertices →
      graph.vertices.idxOf? name = some (graph.vertices.idxOf name) := by
    intro name hname
    obtain ⟨index, hindex⟩ := Option.isSome_iff_exists.mp (List.isSome_idxOf?.mpr hname)
    rw [List.idxOf_eq_getD_idxOf?, hindex, Option.getD_some]
  rw [numberedEdges, ← List.filterMap_eq_map]
  refine List.filterMap_congr ?_
  rintro ⟨a, b⟩ hin
  obtain ⟨ha, hb⟩ := InterferenceGraph.mem_vertices_of_mem_edges proper hin
  simp [found ha, found hb]

theorem nodup_numberedEdges {graph : InterferenceGraph} (proper : graph.Proper) (first : Nat) :
    (numberedEdges graph first).Nodup := by
  rw [numberedEdges_eq proper]
  refine graph.edges_nodup.map_on ?_
  rintro ⟨a, b⟩ hin ⟨c, d⟩ - heq
  obtain ⟨ha, hb⟩ := InterferenceGraph.mem_vertices_of_mem_edges proper hin
  simp only [Prod.mk.injEq, Nat.add_left_cancel_iff] at heq
  rw [(List.idxOf_inj ha).mp heq.1, (List.idxOf_inj hb).mp heq.2]

/-- The edges that a method adds are those of its graph, shifted by the number of nodes before it. -/
theorem mem_numberedEdges {first node other : Nat} :
    (node, other) ∈ numberedEdges method.interference first ↔
      ∃ i j, node = first + i ∧ other = first + j ∧ Joins (spotsAt method place) i j := by
  have proper : method.interference.Proper := proper_interference _
  simp only [numberedEdges_eq proper, joins_spotsAt, List.mem_map, Prod.exists, Prod.mk.injEq]
  constructor
  · rintro ⟨a, b, hin, rfl, rfl⟩
    exact ⟨_, _, rfl, rfl, a, b, hin, rfl, rfl⟩
  · rintro ⟨_, _, rfl, rfl, a, b, hin, rfl, rfl⟩
    exact ⟨a, b, hin, rfl, rfl⟩

-- ---------------------------------------------------------------------------
-- The picture of a list of methods
-- ---------------------------------------------------------------------------

/-- What a picture shows after some methods were added to an empty one. -/
structure Shows (picture : Picture) (methods : List Method) : Prop where
  labels : picture.labels = (spots methods).map Spot.label
  mem_edges : ∀ node other, (node, other) ∈ picture.edges ↔ Joins (spots methods) node other
  nodup : picture.edges.Nodup

theorem Shows.addMethod (h : picture.Shows methods) (method : Method) :
    (picture.addMethod method).Shows (methods ++ [method]) := by
  have hfirst : picture.labels.length = (spots methods).length := by simp [h.labels]
  have hnew : ∀ node other, (node, other) ∈ numberedEdges method.interference picture.labels.length ↔
      ∃ i j, node = (spots methods).length + i ∧ other = (spots methods).length + j ∧
        Joins (spotsAt method methods.length) i j := by
    intro node other
    rw [hfirst, mem_numberedEdges]
  refine ⟨?_, ?_, ?_⟩
  · simp [Picture.addMethod, h.labels, spots_snoc, spotsAt, Function.comp_def, Spot.label]
  · intro node other
    rw [spots_snoc, joins_append fun _ hold _ hadded => not_joined_spotsAt hold hadded, ← hnew, ← h.mem_edges]
    exact List.mem_append
  · refine h.nodup.append (nodup_numberedEdges (proper_interference _) _) ?_
    -- The nodes of an old edge come before those of the method.
    rintro ⟨node, other⟩ hold hadded
    obtain ⟨-, spot, -, hspot, -⟩ := (h.mem_edges node other).mp hold
    obtain ⟨i, j, rfl, -⟩ := (hnew node other).mp hadded
    exact Nat.not_lt.mpr (Nat.le_add_right _ i) (List.getElem?_eq_some_iff.mp hspot).1

theorem Shows.foldl_addMethod (h : picture.Shows methods) (rest : List Method) :
    (rest.foldl Picture.addMethod picture).Shows (methods ++ rest) := by
  induction rest generalizing picture methods with
  | nil => simpa using h
  | cons method rest ih => simpa using ih (h.addMethod method)

theorem shows_ofClass (unit : ClassUnit) : (ofClass unit).Shows unit.methods := by
  have none : Shows ⟨[], []⟩ [] := by
    refine ⟨rfl, fun node other => ?_, List.nodup_nil⟩
    simp [Joins, spots]
  exact none.foldl_addMethod unit.methods

-- ---------------------------------------------------------------------------
-- The picture of a class
-- ---------------------------------------------------------------------------

/-- The picture shows the class, and its nodes stand for the given vertices, one by one. -/
structure Depicts (picture : Picture) (unit : ClassUnit) (spots : List Spot) : Prop where
  /-- The vertices are those of all graphs. A method that occurs twice has its vertices twice. -/
  mem_spots : ∀ spot, spot ∈ spots ↔ unit.methods[spot.place]? = some spot.method ∧
    spot.name ∈ spot.method.interference.vertices
  ordered : spots.Pairwise Spot.Before
  nodup : spots.Nodup
  length : picture.labels.length = spots.length
  label : ∀ (node : Nat) spot, spots[node]? = some spot → ∃ register,
    spot.method.register? spot.name = some register ∧ picture.labels[node]?
      = some (spot.method.name ++ "." ++ spot.name ++ " (" ++ toString register ++ ")")
  joined : ∀ (node other : Nat) spot spot', spots[node]? = some spot → spots[other]? = some spot' →
    ((node, other) ∈ picture.edges ∨ (other, node) ∈ picture.edges ↔ spot.place = spot'.place ∧
      spot.method.interference.hasEdge spot.name spot'.name = true)
  /-- No edge is listed a second time, also not the other way round. -/
  once : ∀ node other, (node, other) ∈ picture.edges →
    picture.edges.count (node, other) + picture.edges.count (other, node) = 1
  exist : ∀ node other, (node, other) ∈ picture.edges →
    node < picture.labels.length ∧ other < picture.labels.length

/-- The registers may be any, but every vertex has one. -/
theorem depicts_ofClass {unit : ClassUnit} (arranged : unit.Arranged) :
    (ofClass unit).Depicts unit (spots unit.methods) := by
  have shown := shows_ofClass unit
  have hlength : (ofClass unit).labels.length = (spots unit.methods).length := by simp [shown.labels]
  refine ⟨fun spot => mem_spots, ordered_spots unit.methods, nodup_spots unit.methods, hlength, ?_, ?_, ?_,
    ?_⟩
  · intro node spot hspot
    obtain ⟨hmethod, hname⟩ := mem_spots.mp (List.mem_of_getElem? hspot)
    have declares := arranged.declares spot.method (List.mem_of_getElem? hmethod)
    obtain ⟨register, hregister⟩ := Method.exists_register? (declares.mem_keys_of_vertex hname)
    refine ⟨register, hregister, ?_⟩
    simp [shown.labels, hspot, Spot.label, nodeLabel, hregister]
  · intro node other spot spot' hspot hspot'
    rw [shown.mem_edges, shown.mem_edges]
    exact joins_or_joins_iff hspot hspot'
  · intro node other hin
    have hback : (other, node) ∉ (ofClass unit).edges := by
      intro hback
      exact Nat.lt_asymm ((shown.mem_edges _ _).mp hin).1 ((shown.mem_edges _ _).mp hback).1
    simp [shown.nodup.count, hin, hback]
  · intro node other hin
    obtain ⟨-, spot, spot', hspot, hspot', -⟩ := (shown.mem_edges _ _).mp hin
    rw [hlength]
    exact ⟨(List.getElem?_eq_some_iff.mp hspot).1, (List.getElem?_eq_some_iff.mp hspot').1⟩

/-- The sum of `x` and `y`, times `x`. By the time the product is made `y` is no longer needed. -/
def scaleDraft : Draft :=
  let x : Element := .operand "x" .int32
  let sum : Element := .operand "sum" .int32
  let product : Element := .operand "product" .int32
  let start := ((Draft.new "scale" .int32).addParam "x" .int32).addParam "y" .int32
  let added := start.push
    (.assign sum .int32 (.binary { op := .add, left := x, right := .operand "y" .int32 }))
  let scaled := added.push (.assign product .int32 (.binary { op := .mul, left := sum, right := x }))
  scaled.push (.ret (some product) .int32)

def scaleMethod : Method :=
  match scaleDraft.build with
  | .ok method => method
  | .error _ => scaleDraft.unlinked

/-- A method of the same name, without vertices. -/
def idleDraft : Draft := (Draft.new "scale" .void).push (.ret none .void)

def idleMethod : Method :=
  match idleDraft.build with
  | .ok method => method
  | .error _ => idleDraft.unlinked

def scales : ClassUnit where
  name := "Scales"
  super? := none
  access := .pub
  isFinal := false
  imports := []
  fields := []
  methods := [scaleMethod, idleMethod, scaleMethod.withRegisters fun _ => 7]

/-- The third method has the nodes from 4 on, and none of them is joined to a node of the first. -/
theorem depicts_ofClass_scales :
    scales.Arranged ∧ (ofClass scales).Depicts scales (spots scales.methods) ∧
      (ofClass scales).labels = ["scale.x (1)", "scale.sum (3)", "scale.y (2)", "scale.product (4)",
        "scale.x (7)", "scale.sum (7)", "scale.y (7)", "scale.product (7)"] ∧
      (ofClass scales).edges = [(0, 1), (0, 2), (0, 3), (1, 2), (1, 3),
        (4, 5), (4, 6), (4, 7), (5, 6), (5, 7)] := by
  have arranged : scales.Arranged := by
    intro method hmethod
    simp only [scales, List.mem_cons, List.not_mem_nil, or_false] at hmethod
    rcases hmethod with rfl | rfl | rfl
    · exact ⟨scaleDraft, scaleMethod, fun name => (scaleMethod.register? name).getD 0, rfl, rfl⟩
    · exact ⟨idleDraft, idleMethod, fun _ => 0, rfl, rfl⟩
    · exact ⟨scaleDraft, scaleMethod, _, rfl, rfl⟩
  exact ⟨arranged, depicts_ofClass arranged, by decide +kernel, by decide +kernel⟩

end Picture

end ThreeAddress
