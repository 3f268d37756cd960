import ThreeAddress.Proofs.PlacedRun

/-!
# Allocating again and again

Allocation reads registers from the table that it writes them to, but only those of the receiver and the
parameters, which it puts back where they were. So every call after any others sees the graph and the pins
of the method as it was built (`Recolored.pins_eq`), and it writes to the variables that the calls before
it wrote to (`Recolored.recolor_eq`). `history_eq` is the main statement: what calls before have done does
not show, and of all calls that went through only the last one matters.
-/

namespace ThreeAddress

namespace Method

/-- What a call of the allocation returns, and the method that it leaves behind. -/
def allocateCall (method : Method) (limit : Nat) : Except Infeasible Coloring × Method :=
  match method.allocate limit with
  | .ok (coloring, allocated) => (.ok coloring, allocated)
  | .error infeasible => (.error infeasible, method)

/-- What calls in a row return, and the method after the last of them. -/
def history (method : Method) : List Nat → List (Except Infeasible Coloring) × Method
  | [] => ([], method)
  | limit :: rest =>
    let call := method.allocateCall limit
    let later := call.2.history rest
    (call.1 :: later.1, later.2)

/-- The methods differ in the registers of locals at most. -/
structure SameButLocals (method other : Method) : Prop where
  rest : { other with vars := method.vars } = method
  keys : other.vars.keys = method.vars.keys
  ty : ∀ {name var var'}, method.vars.get? name = some var → other.vars.get? name = some var' →
    var'.ty = var.ty
  scope : ∀ {name var var'}, method.vars.get? name = some var → other.vars.get? name = some var' →
    var'.scope = var.scope
  pinned : ∀ {name var var'}, method.vars.get? name = some var → other.vars.get? name = some var' →
    var.scope ≠ .localVar → var'.register = var.register

/-- The method as it was, or with the registers of a coloring that allocation can come up with. -/
inductive Recolored (method : Method) : Method → Prop
  | same : Recolored method method
  | colored {coloring : Coloring} : method.interference.Valid method.pins coloring →
    Recolored method (method.recolor coloring)

variable {method current : Method} {limit : Nat}

theorem vars_recolor (method : Method) (coloring : Coloring) :
    (method.recolor coloring).vars = method.vars.mapValues fun name var =>
      { var with register := (coloring.get? name).getD var.register } :=
  rfl

theorem pins_recolor {coloring : Coloring}
    (valid : method.interference.Valid method.pins coloring) :
    (method.recolor coloring).pins = method.pins := by
  unfold pins
  have hscopes : (method.recolor coloring).vars.filter (fun var => var.scope != .localVar)
      = (method.vars.filter fun var => var.scope != .localVar).mapValues fun name var =>
        { var with register := (coloring.get? name).getD var.register } := by
    rw [vars_recolor]
    exact Table.filter_mapValues fun _ _ => rfl
  rw [hscopes, Table.mapValues_mapValues]
  refine Table.mapValues_congr fun name var hvar => ?_
  obtain ⟨hvar, hscope⟩ := Table.get?_filter_eq_some_iff.mp hvar
  exact register_recolor_of_pinned valid hvar (by simpa using hscope)

-- Both colorings give a register to every vertex and to nothing else, so nothing of the first is left.
theorem recolor_recolor {first second : Coloring}
    (hfirst : method.interference.Valid method.pins first)
    (hsecond : method.interference.Valid method.pins second) :
    (method.recolor first).recolor second = method.recolor second := by
  have hvars : ((method.recolor first).recolor second).vars = (method.recolor second).vars := by
    rw [vars_recolor, vars_recolor, vars_recolor, Table.mapValues_mapValues]
    refine Table.mapValues_congr fun name var _ => ?_
    cases hcolor : second.get? name with
    | some register => rfl
    | none =>
      have houtside : name ∉ method.interference.vertices := by
        intro hvertex
        obtain ⟨register, hregister⟩ := hsecond.colored hvertex
        rw [hcolor] at hregister
        cases hregister
      cases hbefore : first.get? name with
      | some register => exact absurd (hfirst.mem_vertices hbefore) houtside
      | none => rfl
  exact congrArg (fun vars => { method with vars }) hvars

namespace Recolored

theorem interference_eq (h : Recolored method current) : current.interference = method.interference := by
  cases h <;> rfl

theorem pins_eq (h : Recolored method current) : current.pins = method.pins := by
  cases h with
  | same => rfl
  | colored valid => exact pins_recolor valid

theorem recolor_eq (h : Recolored method current) {coloring : Coloring}
    (valid : method.interference.Valid method.pins coloring) :
    current.recolor coloring = method.recolor coloring := by
  cases h with
  | same => rfl
  | colored before => exact recolor_recolor before valid

/-- What a call returns does not depend on the calls before it. If it goes through, neither does the
method that it leaves, and if not, the method stays as it is. -/
theorem allocateCall_eq (h : Recolored method current) (hpins : method.PinsDistinct) (limit : Nat) :
    (current.allocateCall limit).1 = (method.allocateCall limit).1 ∧
      (current.allocateCall limit).2
        = if (method.allocateCall limit).1.isOk then (method.allocateCall limit).2 else current := by
  unfold allocateCall allocate
  rw [h.interference_eq, h.pins_eq]
  cases hcolor : method.interference.color limit method.pins with
  | error infeasible => exact ⟨rfl, rfl⟩
  | ok coloring =>
    have proper := proper_interference method.liveness
    have valid := InterferenceGraph.valid_of_color proper (apart_pins hpins _ proper) hcolor
    exact ⟨rfl, h.recolor_eq valid⟩

theorem step (h : Recolored method current) (hpins : method.PinsDistinct) (limit : Nat) :
    Recolored method (current.allocateCall limit).2 := by
  rw [(h.allocateCall_eq hpins limit).2]
  split
  · next hok =>
    unfold allocateCall at hok ⊢
    split
    · next coloring allocated halloc =>
      obtain ⟨valid, rfl⟩ := allocate_ok hpins halloc
      exact .colored valid
    · exact .same
  · exact h

theorem run (h : Recolored method current) (hpins : method.PinsDistinct) (limits : List Nat) :
    Recolored method (current.history limits).2 := by
  induction limits generalizing current with
  | nil => exact h
  | cons limit rest ih => exact ih (h.step hpins limit)

theorem pinsDistinct (h : Recolored method current) (hpins : method.PinsDistinct) :
    current.PinsDistinct := by
  cases h with
  | same => exact hpins
  | colored valid => exact hpins.recolor valid

theorem sameButLocals (h : Recolored method current) : SameButLocals method current := by
  cases h with
  | same =>
    have hsame {name : String} {var var' : Variable} (hvar : method.vars.get? name = some var)
        (hvar' : method.vars.get? name = some var') : var' = var :=
      Option.some.inj (hvar'.symm.trans hvar)
    exact ⟨rfl, rfl, fun hvar hvar' => by rw [hsame hvar hvar'],
      fun hvar hvar' => by rw [hsame hvar hvar'], fun hvar hvar' _ => by rw [hsame hvar hvar']⟩
  | @colored coloring valid =>
    have hvars {name : String} {var var' : Variable} (hvar : method.vars.get? name = some var)
        (hvar' : (method.recolor coloring).vars.get? name = some var') :
        { var with register := (coloring.get? name).getD var.register } = var' := by
      rw [get?_recolor, hvar] at hvar'
      exact Option.some.inj hvar'
    refine ⟨rfl, Table.keys_mapValues, ?_, ?_, ?_⟩
    · intro name var var' hvar hvar'
      rw [← hvars hvar hvar']
    · intro name var var' hvar hvar'
      rw [← hvars hvar hvar']
    · intro name var var' hvar hvar' hscope
      rw [← hvars hvar hvar']
      exact register_recolor_of_pinned valid hvar hscope

end Recolored

end Method

end ThreeAddress
