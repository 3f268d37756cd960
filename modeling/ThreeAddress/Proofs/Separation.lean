import ThreeAddress.Allocation
import ThreeAddress.Proofs.Layout
import ThreeAddress.Proofs.Settled
import ThreeAddress.Proofs.ValidColoring

/-!
# Allocation separates what is live

A place for every variable is good enough if no instruction writes where a variable lies that is live
after it (`Separates`). Then two runs that keep their variables in different places stay in agreement
on the live variables: `Agree.write` is the step. The registers of a freshly built method separate, and
so do the registers after `Method.allocate`, where a variable outside the interference graph may well
lie in the register of another one.
-/

namespace ThreeAddress

open Liveness (Closed liveInOf node?)

/-- A method that was built from a draft and had its registers allocated any number of times. A call of
`Method.allocate` that fails leaves no other method behind. -/
inductive Method.Prepared : Method → Prop
  | built {draft : Draft} {method : Method} : draft.build = .ok method → Prepared method
  | allocated {method allocated : Method} {limit : Nat} {coloring : Coloring} : Prepared method →
    method.allocate limit = .ok (coloring, allocated) → Prepared allocated

/-- The receiver and the parameters are in different registers. -/
def Method.PinsDistinct (method : Method) : Prop :=
  ∀ {a b : String} {va vb : Variable}, method.vars.get? a = some va → method.vars.get? b = some vb →
    va.scope ≠ .localVar → vb.scope ≠ .localVar → va.register = vb.register → a = b

namespace Method

theorem get?_pins {method : Method} {name : String} {register : Nat} :
    method.pins.get? name = some register ↔ ∃ var, method.vars.get? name = some var ∧
      var.scope ≠ .localVar ∧ var.register = register := by
  simp only [pins, Table.get?_mapValues, Option.map_eq_some_iff, Table.get?_filter_eq_some_iff,
    bne_iff_ne, and_assoc]

theorem get?_recolor {method : Method} {coloring : Coloring} {name : String} :
    (method.recolor coloring).vars.get? name = (method.vars.get? name).map fun var =>
      { var with register := (coloring.get? name).getD var.register } :=
  Table.get?_mapValues

theorem register?_recolor {method : Method} {coloring : Coloring} {name : String} :
    (method.recolor coloring).register? name = (method.register? name).map fun register =>
      (coloring.get? name).getD register := by
  rw [register?, register?, get?_recolor, Option.map_map, Option.map_map]
  rfl

theorem exists_register? {method : Method} {name : String} (h : name ∈ method.vars.keys) :
    ∃ register, method.register? name = some register := by
  obtain ⟨var, hvar⟩ := Table.mem_keys_iff.mp h
  exact ⟨var.register, congrArg (Option.map Variable.register) hvar⟩

theorem apart_pins {method : Method} (h : method.PinsDistinct) (graph : InterferenceGraph)
    (proper : graph.Proper) : graph.Apart method.pins := by
  intro a b ra rb hn ha hb eq
  obtain ⟨va, hva, sa, rfl⟩ := get?_pins.mp ha
  obtain ⟨vb, hvb, sb, rfl⟩ := get?_pins.mp hb
  obtain rfl := h hva hvb sa sb eq
  exact proper.irrefl a hn

theorem allocate_ok {method allocated : Method} {limit : Nat} {coloring : Coloring}
    (hpins : method.PinsDistinct) (h : method.allocate limit = .ok (coloring, allocated)) :
    method.interference.Valid method.pins coloring ∧ allocated = method.recolor coloring := by
  unfold allocate at h
  split at h
  · next hcolor =>
    cases h
    have proper := proper_interference method.liveness
    exact ⟨InterferenceGraph.valid_of_color proper (apart_pins hpins _ proper) hcolor, rfl⟩
  · cases h

-- A pin is in the graph and keeps its register, or it is not, and then it is not recolored.
theorem register_recolor_of_pinned {method : Method} {coloring : Coloring} {name : String}
    {var : Variable} (valid : method.interference.Valid method.pins coloring)
    (hvar : method.vars.get? name = some var) (hscope : var.scope ≠ .localVar) :
    (coloring.get? name).getD var.register = var.register := by
  cases hget : coloring.get? name with
  | none => rfl
  | some register =>
    have hpin := valid.pinned (get?_pins.mpr ⟨var, hvar, hscope, rfl⟩) (valid.mem_vertices hget)
    exact Option.some.inj (hget.symm.trans hpin)

theorem PinsDistinct.recolor {method : Method} {coloring : Coloring} (h : method.PinsDistinct)
    (valid : method.interference.Valid method.pins coloring) :
    (method.recolor coloring).PinsDistinct := by
  intro a b va vb ha hb sa sb eq
  rw [get?_recolor] at ha hb
  obtain ⟨wa, hwa, rfl⟩ := Option.map_eq_some_iff.mp ha
  obtain ⟨wb, hwb, rfl⟩ := Option.map_eq_some_iff.mp hb
  rw [register_recolor_of_pinned valid hwa sa, register_recolor_of_pinned valid hwb sb] at eq
  exact h hwa hwb sa sb eq

theorem Declares.mapVars {method : Method} (h : method.Declares)
    (f : String → Variable → Variable) :
    { method with vars := method.vars.mapValues f : Method }.Declares := by
  intro inst hinst name htouch
  rw [Table.keys_mapValues]
  exact h inst hinst name htouch

theorem Linked.withVars {method : Method} (h : method.Linked) (vars : Table Variable) :
    { method with vars : Method }.Linked :=
  ⟨h.id_eq, h.label?_iff, h.labels_nodup, h.successors_eq⟩

theorem Prepared.pinsDistinct {method : Method} (h : method.Prepared) : method.PinsDistinct := by
  induction h with
  | built hbuild =>
    intro a b va vb ha hb _ _ eq
    exact (Draft.stacked_of_build hbuild).register_inj ha hb eq
  | allocated _ halloc ih =>
    obtain ⟨valid, rfl⟩ := allocate_ok ih halloc
    exact PinsDistinct.recolor ih valid

theorem Prepared.declares {method : Method} (h : method.Prepared) : method.Declares := by
  induction h with
  | built hbuild => exact Draft.declares_of_build hbuild
  | allocated hprep halloc ih =>
    obtain ⟨-, rfl⟩ := allocate_ok hprep.pinsDistinct halloc
    exact ih.mapVars _

theorem Prepared.linked {method : Method} (h : method.Prepared) : method.Linked := by
  induction h with
  | built hbuild => exact Draft.linked_of_build hbuild
  | allocated hprep halloc ih =>
    obtain ⟨-, rfl⟩ := allocate_ok hprep.pinsDistinct halloc
    exact ih.withVars _

/-- The method with its variables in other registers, which need not be different ones. -/
def withRegisters (method : Method) (assignment : String → Nat) : Method :=
  { method with
    vars := method.vars.mapValues fun name var => { var with register := assignment name } }

end Method

-- ---------------------------------------------------------------------------
-- Places of variables
-- ---------------------------------------------------------------------------

section
variable {L L' V : Type}

/-- No node writes to the place of another variable that is live after it. -/
def Separates (nodes : List LiveNode) (place : String → Option L) : Prop :=
  ∀ node ∈ nodes, ∀ written ∈ node.defs, ∀ live ∈ node.liveOut, live ≠ written →
    place live ≠ place written

/-- A variable of the given set has the same value in both places. -/
def Agree (names : NameSet) (place : String → Option L) (place' : String → Option L')
    (file : L → V) (file' : L' → V) : Prop :=
  ∀ name ∈ names, (place name).map file = (place' name).map file'

theorem separates_some (nodes : List LiveNode) : Separates nodes some :=
  fun _ _ _ _ _ _ ne eq => ne (Option.some.inj eq)

variable {nodes : List LiveNode} {node : LiveNode} {index succ : Nat}
  {place : String → Option L} {place' : String → Option L'} {file : L → V} {file' : L' → V}

/-- What is live before a successor was live before the node already, unless the node writes it. -/
theorem liveIn_of_succ (closed : Closed nodes) (hnode : nodes[index]? = some node)
    (hsucc : succ ∈ node.succs) {name : String} (hname : name ∈ liveInOf nodes succ) :
    name ∈ node.liveOut ∧ (name ∈ node.defs ∨ name ∈ node.liveIn) := by
  have hout := closed.of_succ hnode hsucc hname
  by_cases hdef : name ∈ node.defs
  · exact ⟨hout, .inl hdef⟩
  · exact ⟨hout, .inr (closed.of_kept hnode hout hdef)⟩

theorem Agree.keep (closed : Closed nodes) (hnode : nodes[index]? = some node)
    (hdefs : ∀ name, name ∉ node.defs) (agree : Agree node.liveIn place place' file file')
    (hsucc : succ ∈ node.succs) : Agree (liveInOf nodes succ) place place' file file' := by
  intro name hname
  rcases (liveIn_of_succ closed hnode hsucc hname).2 with hdef | hlive
  · exact absurd hdef (hdefs name)
  · exact agree name hlive

variable [DecidableEq L] [DecidableEq L']

theorem map_update_of_ne {place : String → Option L} {file : L → V} {name : String} {location : L}
    {value : V} (h : place name ≠ some location) :
    (place name).map (Function.update file location value) = (place name).map file := by
  cases hname : place name with
  | none => rfl
  | some other =>
    have ne : other ≠ location := fun eq => h (hname.trans (congrArg some eq))
    exact congrArg some (Function.update_of_ne ne value file)

theorem Agree.write (closed : Closed nodes) (hnode : nodes[index]? = some node)
    (separates : Separates nodes place) (separates' : Separates nodes place')
    {written : String} {location : L} {location' : L'} (hdefs : ∀ name, name ∈ node.defs ↔ name = written)
    (hlocation : place written = some location) (hlocation' : place' written = some location')
    (agree : Agree node.liveIn place place' file file') (hsucc : succ ∈ node.succs) (value : V) :
    Agree (liveInOf nodes succ) place place' (Function.update file location value)
      (Function.update file' location' value) := by
  intro name hname
  obtain ⟨hout, hcase⟩ := liveIn_of_succ closed hnode hsucc hname
  by_cases eq : name = written
  · rw [eq, hlocation, hlocation']
    simp
  · have hmem := List.mem_of_getElem? hnode
    have hwritten := (hdefs written).mpr rfl
    have hlive : name ∈ node.liveIn := hcase.resolve_left fun hdef => eq ((hdefs name).mp hdef)
    rw [map_update_of_ne (hlocation ▸ separates node hmem written hwritten name hout eq),
      map_update_of_ne (hlocation' ▸ separates' node hmem written hwritten name hout eq)]
    exact agree name hlive

end

-- ---------------------------------------------------------------------------
-- Registers that separate
-- ---------------------------------------------------------------------------

namespace Method

theorem node_of_mem_liveness {method : Method} {node : LiveNode} (h : node ∈ method.liveness) :
    ∃ inst ∈ method.instructions, node.outline = inst.liveNode.outline := by
  obtain ⟨index, hindex⟩ := List.mem_iff_getElem?.mp h
  have hlt := (List.getElem?_eq_some_iff.mp hindex).1
  have hget := List.getElem?_eq_getElem (method.length_liveness ▸ hlt)
  obtain ⟨node', hnode', houtline⟩ := getElem?_liveness hget
  cases hindex.symm.trans hnode'
  exact ⟨_, List.mem_of_getElem? hget, houtline⟩

/-- A variable that a node writes has a register. -/
theorem Declares.register_of_def {method : Method} (h : method.Declares) {node : LiveNode}
    (hnode : node ∈ method.liveness) {name : String} (hdef : name ∈ node.defs) :
    ∃ register, method.register? name = some register := by
  obtain ⟨inst, hinst, houtline⟩ := node_of_mem_liveness hnode
  have hdefs : node.defs = .ofList inst.statement.defs := congrArg LiveNode.defs houtline
  rw [hdefs] at hdef
  exact exists_register? (h inst hinst name (.inl (NameSet.mem_ofList.mp hdef)))

theorem separates_of_build {draft : Draft} {method : Method} (h : draft.build = .ok method) :
    Separates method.liveness method.register? := by
  intro node hnode written hwritten live _ ne eq
  obtain ⟨register, hregister⟩ := (Draft.declares_of_build h).register_of_def hnode hwritten
  rw [hregister] at eq
  obtain ⟨va, hva, ha⟩ := Option.map_eq_some_iff.mp eq
  obtain ⟨vb, hvb, hb⟩ := Option.map_eq_some_iff.mp hregister
  exact ne ((Draft.stacked_of_build h).register_inj hva hvb (ha.trans hb.symm))

theorem separates_of_allocate {method allocated : Method} {limit : Nat} {coloring : Coloring}
    (hprep : method.Prepared) (h : method.allocate limit = .ok (coloring, allocated)) :
    Separates method.liveness allocated.register? := by
  obtain ⟨valid, rfl⟩ := allocate_ok hprep.pinsDistinct h
  intro node hnode written hwritten live hlive ne
  have closed := method.closed_liveness
  obtain ⟨index, hindex⟩ := List.mem_iff_getElem?.mp hnode
  obtain ⟨inst, hinst, houtline⟩ := node_of_mem_liveness hnode
  -- The node writes one variable only, so the live one goes through it, and the two conflict.
  have hdefs : node.defs = .ofList inst.statement.defs := congrArg LiveNode.defs houtline
  have hother : live ∉ node.defs := by
    rw [hdefs, NameSet.mem_ofList] at hwritten ⊢
    simp only [Statement.defs, Option.mem_toList] at hwritten ⊢
    intro hlive
    exact ne (Option.some.inj (hlive.symm.trans hwritten))
  have hthrough := closed.of_kept hindex hlive hother
  have hedge : written ∈ method.interference.neighbours live :=
    mem_neighbours_interference.mpr ⟨ne, node, hnode, .inl ⟨hthrough, .inl hwritten⟩⟩
  have proper := proper_interference method.liveness
  obtain ⟨ra, hra⟩ := valid.colored (proper.mem_vertices hedge)
  obtain ⟨rb, hrb⟩ := valid.colored (proper.mem_vertices (proper.symm hedge))
  obtain ⟨register, hregister⟩ := hprep.declares.register_of_def hnode hwritten
  rw [register?_recolor, register?_recolor, hregister, hra, hrb]
  cases method.register? live with
  | none => simp
  | some _ => simpa using valid.apart hedge hra hrb

end Method

-- ---------------------------------------------------------------------------
-- Agreement along a method
-- ---------------------------------------------------------------------------

namespace Method

variable {L L' V : Type} {method : Method} {id next : Nat} {inst : Instruction}
  {place : String → Option L} {place' : String → Option L'} {file : L → V} {file' : L' → V}

theorem agree_uses (hinst : method.instruction? id = some inst)
    (agree : Agree (liveInOf method.liveness id) place place' file file') {name : String}
    (huse : name ∈ inst.statement.uses) : (place name).map file = (place' name).map file' := by
  obtain ⟨index, node, hnode, hliveIn, -, huses, -⟩ := exists_node hinst
  rw [hliveIn] at agree
  exact agree name (method.closed_liveness.of_use hnode ((huses name).mpr huse))

theorem agree_keep (hinst : method.instruction? id = some inst) (hdef : inst.statement.def? = none)
    (agree : Agree (liveInOf method.liveness id) place place' file file')
    (hnext : .instruction next ∈ inst.successors) :
    Agree (liveInOf method.liveness next) place place' file file' := by
  obtain ⟨index, node, hnode, hliveIn, hdefs, -, hsuccs⟩ := exists_node hinst
  have hkeep : ∀ name, name ∉ node.defs := by
    intro name hname
    rw [hdefs, Statement.defs, hdef] at hname
    cases hname
  have hsucc : next ∈ node.succs := hsuccs ▸ Instruction.mem_nextIds.mpr hnext
  exact Agree.keep method.closed_liveness hnode hkeep (hliveIn ▸ agree) hsucc

theorem agree_write [DecidableEq L] [DecidableEq L'] (hinst : method.instruction? id = some inst)
    (separates : Separates method.liveness place) (separates' : Separates method.liveness place')
    {written : String} {location : L} {location' : L'} (hdef : inst.statement.def? = some written)
    (hlocation : place written = some location) (hlocation' : place' written = some location')
    (agree : Agree (liveInOf method.liveness id) place place' file file')
    (hnext : .instruction next ∈ inst.successors) (value : V) :
    Agree (liveInOf method.liveness next) place place' (Function.update file location value)
      (Function.update file' location' value) := by
  obtain ⟨index, node, hnode, hliveIn, hdefs, -, hsuccs⟩ := exists_node hinst
  have honly : ∀ name, name ∈ node.defs ↔ name = written := by
    intro name
    rw [hdefs, Statement.defs, hdef, Option.toList_some, List.mem_singleton]
  have hsucc : next ∈ node.succs := hsuccs ▸ Instruction.mem_nextIds.mpr hnext
  exact Agree.write method.closed_liveness hnode separates separates' honly hlocation hlocation'
    (hliveIn ▸ agree) hsucc value

end Method

end ThreeAddress
