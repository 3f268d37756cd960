import ThreeAddress.Proofs.Building
import ThreeAddress.Proofs.Locals

/-!
# The frame of a built method

Registers go by first mention: first comes what the method is passed, then the variables of the body in
the order in which they are read off it. `Method.Laid` collects what this means for the table of variables,
and `Draft.laid_of_build` says that it holds of every built method. The invariant behind it is that the
names in the table are those seen so far, each where it was seen first (`VariableLayout.Lists`).
-/

namespace ThreeAddress

/-- The variables that a statement names: its destination comes before what it reads, and an array before
its index. -/
def Statement.mentioned : Statement → List String
  | .assign dest _ rhs => dest.reads ++ rhs.uses
  | statement => statement.uses

namespace VariableLayout

variable {vars : Table Variable} {names : List String}

/-- The names in the table are the given ones, each where it stands first. -/
def Lists (vars : Table Variable) (names : List String) : Prop := vars.keys = names.eraseDups

theorem Lists.mem_keys_iff (h : Lists vars names) {name : String} : name ∈ vars.keys ↔ name ∈ names := by
  rw [h, List.mem_eraseDups]

theorem declare_of_mem {name : String} (h : name ∈ vars.keys) (ty : Ty) (scope : Scope) :
    declare vars name ty scope = vars := if_pos (Table.contains_iff.mpr h)

theorem declare_of_not_mem {name : String} (h : name ∉ vars.keys) (ty : Ty) (scope : Scope) :
    declare vars name ty scope = vars.set name ⟨vars.size, ty, scope⟩ := if_neg (mt Table.contains_iff.mp h)

theorem Lists.declare (h : Lists vars names) (name : String) (ty : Ty) (scope : Scope) :
    Lists (declare vars name ty scope) (names ++ [name]) := by
  unfold Lists
  rw [eraseDups_snoc, ← h]
  by_cases known : name ∈ vars.keys
  · rw [declare_of_mem known, if_pos (h.mem_keys_iff.mp known)]
  · rw [declare_of_not_mem known, if_neg (mt h.mem_keys_iff.mpr known), Table.keys_set_of_not_mem known]

theorem Lists.declareElement (h : Lists vars names) (element : Element) :
    Lists (declareElement vars element) (names ++ element.reads) := by
  induction element generalizing vars names with
  | literal value ty => simpa [VariableLayout.declareElement, Element.reads] using h
  | operand name ty =>
    simp only [VariableLayout.declareElement, Element.reads]
    split
    · simpa using h
    · exact h.declare name ty .localVar
  | slot name index ty ih =>
    have hindex := ih (h.declare name (.array ty) .localVar)
    rwa [List.append_assoc, List.singleton_append] at hindex

theorem Lists.elements (h : Lists vars names) (elements : List Element) :
    Lists (elements.foldl VariableLayout.declareElement vars) (names ++ elements.flatMap Element.reads) := by
  induction elements generalizing vars names with
  | nil => simpa using h
  | cons element rest ih =>
    have hrest := ih (h.declareElement element)
    rwa [List.append_assoc, ← List.flatMap_cons] at hrest

/-- To name again what was named before changes nothing. -/
theorem Lists.absorb {again : List String} (h : Lists vars (names ++ again))
    (known : ∀ name ∈ again, name ∈ names) : Lists vars names := by
  have hnone : again.removeAll names = [] := by
    simpa [List.removeAll] using known
  unfold Lists at h ⊢
  rwa [List.eraseDups_append, hnone, List.eraseDups_nil, List.append_nil] at h

theorem Lists.statement (h : Lists vars names) (statement : Statement) :
    Lists ((mentions statement).foldl VariableLayout.declareElement vars)
      (names ++ statement.mentioned) := by
  cases statement with
  | assign dest ty rhs =>
    have hdest := h.declareElement dest
    -- A slot that is stored into is declared once more as something that is read.
    have again : ∀ name ∈ (Statement.destOperands dest).flatMap Element.reads,
        name ∈ names ++ dest.reads := by
      intro name hname
      cases dest with
      | slot array index item =>
        rw [Statement.destOperands, List.flatMap_singleton] at hname
        exact List.mem_append_right _ hname
      | _ => exact absurd hname List.not_mem_nil
    have hrhs := ((hdest.elements (Statement.destOperands dest)).absorb again).elements rhs.operands
    rw [List.append_assoc, ← List.foldl_append] at hrhs
    exact hrhs
  | _ => exact h.elements _

theorem Lists.body (h : Lists vars names) (body : List Statement) :
    Lists ((body.flatMap mentions).foldl VariableLayout.declareElement vars)
      (names ++ body.flatMap Statement.mentioned) := by
  induction body generalizing vars names with
  | nil => simpa using h
  | cons statement rest ih =>
    have hrest := ih (h.statement statement)
    rwa [List.append_assoc, ← List.flatMap_cons, ← List.foldl_append, ← List.flatMap_cons] at hrest

theorem lists_signature (isStatic : Bool) (params : List Parameter) :
    Lists (signature isStatic params) (passedNames isStatic params) := by
  have step : ∀ (params : List Parameter) (vars : Table Variable) (names : List String),
      Lists vars names →
      Lists (params.foldl (fun vars param => VariableLayout.declare vars param.name param.ty .parameter) vars)
        (names ++ params.map Parameter.name) := by
    intro params
    induction params with
    | nil => simp
    | cons param rest ih =>
      intro vars names h
      have hrest := ih _ _ (h.declare param.name param.ty .parameter)
      rwa [List.append_assoc, List.singleton_append] at hrest
  have none : Lists ∅ [] := rfl
  refine step params _ _ ?_
  cases isStatic with
  | true => exact none
  | false => exact none.declare "this" .receiver .receiver

theorem lists_layout (isStatic : Bool) (params : List Parameter) (body : List Statement) :
    Lists (layout isStatic params body)
      (passedNames isStatic params ++ body.flatMap Statement.mentioned) :=
  (lists_signature isStatic params).body body

/-- Parameters with new names get the next registers, in order. -/
theorem entries_params {params : List Parameter}
    (fresh : (vars.keys ++ params.map Parameter.name).Nodup) :
    (params.foldl (fun vars param => declare vars param.name param.ty .parameter) vars).entries
      = vars.entries ++ (params.zipIdx vars.size).map fun place =>
        (place.1.name, ⟨place.2, place.1.ty, .parameter⟩) := by
  induction params generalizing vars with
  | nil => simp
  | cons param rest ih =>
    have hnew : param.name ∉ vars.keys := by
      intro hin
      exact (List.nodup_append.mp fresh).2.2 _ hin _ List.mem_cons_self rfl
    have hsize : (vars.set param.name ⟨vars.size, param.ty, .parameter⟩).size = vars.size + 1 := by
      rw [Table.size, Table.entries_set_of_not_mem hnew, List.length_append]
      rfl
    rw [List.foldl_cons, declare_of_not_mem hnew,
      ih (by rwa [Table.keys_set_of_not_mem hnew, List.append_assoc, List.singleton_append]),
      Table.entries_set_of_not_mem hnew, hsize, List.append_assoc, List.zipIdx_cons]
    rfl

theorem getElem?_signature {isStatic : Bool} {params : List Parameter}
    (nodup : (passedNames isStatic params).Nodup) {index : Nat} {param : Parameter}
    (h : params[index]? = some param) :
    let register := if isStatic then index else index + 1
    (signature isStatic params).entries[register]?
      = some (param.name, ⟨register, param.ty, .parameter⟩) := by
  -- What the parameters add comes behind the receiver, if there is one.
  have added : ∀ (start : Table Variable) (register : Nat),
      (start.keys ++ params.map Parameter.name).Nodup → start.entries.length + index = register →
      (params.foldl (fun vars param => declare vars param.name param.ty .parameter)
        start).entries[register]? = some (param.name, ⟨register, param.ty, .parameter⟩) := by
    rintro start _ fresh rfl
    rw [entries_params fresh, List.getElem?_append_right (Nat.le_add_right _ _)]
    simp [Table.size, List.getElem?_zipIdx, h]
  cases isStatic with
  | true => exact added ∅ index nodup (Nat.zero_add index)
  | false => exact added (declare ∅ "this" .receiver .receiver) (index + 1) nodup (Nat.add_comm 1 index)

end VariableLayout

theorem Table.Stacked.register?_iff {vars : Table Variable} (h : vars.Stacked) {name : String}
    {register : Nat} :
    (vars.get? name).map Variable.register = some register ↔ vars.keys[register]? = some name := by
  rw [Table.keys, List.getElem?_map, Option.map_eq_some_iff, Option.map_eq_some_iff]
  constructor
  · rintro ⟨var, hvar, rfl⟩
    exact ⟨_, h.getElem?_register hvar, rfl⟩
  · rintro ⟨⟨_, var⟩, hentry, rfl⟩
    exact ⟨var, Table.get?_eq_some_iff.mpr (List.mem_of_getElem? hentry), h.register_eq hentry⟩

namespace Method

/-- The variables that the body names, in order and with repetitions. -/
def mentioned (method : Method) : List String :=
  method.instructions.flatMap fun inst => inst.statement.mentioned

/-- How the variables of a method lie in its registers. -/
structure Laid (method : Method) : Prop where
  distinct : ∀ a b register, method.register? a = some register →
    method.register? b = some register → a = b
  dense : ∀ register, (∃ name, method.register? name = some register) ↔ register < method.vars.size
  receiver : method.isStatic = false → method.register? "this" = some 0
  params : (method.params.map Parameter.name).Nodup →
    (method.isStatic = false → "this" ∉ method.params.map Parameter.name) →
    ∀ index param, method.params[index]? = some param →
      method.vars.get? param.name
        = some ⟨if method.isStatic then index else index + 1, param.ty, .parameter⟩
  /-- Registers count the names from the first on, without repetitions. -/
  order : ∀ name register, method.register? name = some register ↔
    (method.passed ++ method.mentioned).eraseDups[register]? = some name
  scope : ∀ name var, method.vars.get? name = some var → (var.scope = .localVar ↔ name ∉ method.passed)
  declares : method.Declares
  /-- In particular a class that is only named has no entry. -/
  mem_keys : ∀ name, name ∈ method.vars.keys ↔ name ∈ method.passed ∨ name ∈ method.mentioned

end Method

namespace Draft

variable {draft : Draft} {method : Method}

theorem lists_of_build (h : draft.build = .ok method) :
    VariableLayout.Lists method.vars (method.passed ++ method.mentioned) := by
  obtain ⟨labels, linked, -, hlink, rfl⟩ := build_ok h
  have hstatements : linked.map Instruction.statement = draft.body.map Prod.snd :=
    (ControlFlow.map_link (fun _ _ => rfl) hlink).trans draft.statements_instructions
  have hmentioned : linked.flatMap (fun inst => inst.statement.mentioned)
      = (draft.body.map Prod.snd).flatMap Statement.mentioned := by
    rw [← hstatements, List.flatMap_map]
  show VariableLayout.Lists _ (passedNames draft.isStatic draft.params ++ linked.flatMap _)
  rw [hmentioned]
  exact VariableLayout.lists_layout draft.isStatic draft.params (draft.body.map Prod.snd)

theorem scope_of_build (h : draft.build = .ok method) {name : String} {var : Variable}
    (hvar : method.vars.get? name = some var) : var.scope = .localVar ↔ name ∉ method.passed := by
  obtain ⟨added, hadded, hlocal⟩ := Method.extendsByLocals_of_build h
  have hpassed : name ∈ method.passed ↔
      name ∈ (VariableLayout.signature method.isStatic method.params).keys :=
    VariableLayout.mem_keys_signature.symm
  have hentry := Table.get?_eq_some_iff.mp hvar
  rw [hadded, List.mem_append] at hentry
  constructor
  · intro hscope hin
    obtain ⟨passed, hsignature⟩ := Table.mem_keys_iff.mp (hpassed.mp hin)
    have hfirst := Table.get?_eq_some_iff.mp hsignature
    have hsame : method.vars.get? name = some passed := by
      refine Table.get?_eq_some_iff.mpr ?_
      rw [hadded]
      exact List.mem_append_left added hfirst
    cases hvar.symm.trans hsame
    exact VariableLayout.scope_signature hfirst hscope
  · intro hnot
    rcases hentry with hfirst | hlast
    · exact absurd (hpassed.mpr (List.mem_map_of_mem hfirst)) hnot
    · exact hlocal _ hlast

theorem param_of_build (h : draft.build = .ok method) (nodup : method.passed.Nodup) {index : Nat}
    {param : Parameter} (hparam : method.params[index]? = some param) :
    method.vars.get? param.name
      = some ⟨if method.isStatic then index else index + 1, param.ty, .parameter⟩ := by
  obtain ⟨added, hadded, -⟩ := Method.extendsByLocals_of_build h
  have hentry := VariableLayout.getElem?_signature nodup hparam
  refine Table.get?_eq_some_iff.mpr ?_
  rw [hadded]
  exact List.mem_append_left added (List.mem_of_getElem? hentry)

theorem laid_of_build (h : draft.build = .ok method) : method.Laid := by
  have lists := lists_of_build h
  have place : ∀ {name register}, method.register? name = some register ↔
      method.vars.keys[register]? = some name := (stacked_of_build h).register?_iff
  refine ⟨?_, ?_, ?_, ?_, ?_, fun name var => scope_of_build h, declares_of_build h, ?_⟩
  · intro a b register ha hb
    exact Option.some.inj ((place.mp ha).symm.trans (place.mp hb))
  · intro register
    have hsize : method.vars.keys.length = method.vars.size := List.length_map _
    simp only [place]
    rw [← hsize]
    constructor
    · rintro ⟨name, hname⟩
      exact (List.getElem?_eq_some_iff.mp hname).1
    · intro hlt
      exact ⟨_, List.getElem?_eq_getElem hlt⟩
  · intro hinstance
    have hpassed : method.passed = "this" :: method.params.map Parameter.name := by
      rw [Method.passed, passedNames, hinstance]
      rfl
    rw [place, lists, hpassed, List.cons_append, List.eraseDups_cons]
    rfl
  · intro nodup hthis index param
    refine param_of_build h ?_
    rw [Method.passed, passedNames]
    cases hstatic : method.isStatic with
    | true => simpa using nodup
    | false => exact List.nodup_cons.mpr ⟨hthis hstatic, nodup⟩
  · intro name register
    rw [place, lists]
  · intro name
    rw [lists.mem_keys_iff, List.mem_append]

/-- Two slots, a class that is only named, and one that has a variable of the same name. -/
def shelfDraft : Draft :=
  let start := ((Draft.new "put" .void).addParam "n" .int32).addParam "box" (.object "Box")
  let place := Element.slot "shelf" (.slot "order" (.operand "n" .int32) .int32) (.object "Box")
  let stored := start.push (.assign place (.object "Box") (.element (.operand "box" (.object "Box"))))
  let made := stored.push (.assign (.operand "Lid" (.object "Lid")) (.object "Lid") (.call {
    invocation := .new, target := .ofClass "Lid", method? := none, args := [], ret := .object "Lid" }))
  let closed := made.push (.call {
    invocation := .static, target := .ofClass "Shop", method? := some "close"
    args := [.operand "order" (.array .int32), .operand "last" .int32], ret := .void })
  closed.push (.ret none .void)

def shelf : Method :=
  match shelfDraft.build with
  | .ok method => method
  | .error _ => shelfDraft.unlinked

theorem laid_of_build_shelf :
    shelfDraft.build = .ok shelf ∧ shelf.passed = ["this", "n", "box"] ∧
      shelf.mentioned = ["shelf", "order", "n", "box", "Lid", "order", "last"] ∧
      shelf.register? "this" = some 0 ∧ shelf.vars.get? "box" = some ⟨2, .object "Box", .parameter⟩ ∧
      shelf.register? "order" = some 4 ∧ shelf.register? "Lid" = some 5 ∧
      shelf.register? "last" = some 6 ∧ "Shop" ∉ shelf.vars.keys := by
  have built : shelfDraft.build = .ok shelf := rfl
  have laid := laid_of_build built
  refine ⟨built, rfl, rfl, laid.receiver rfl, laid.params (by decide) (by decide) 1 _ rfl,
    (laid.order _ _).mpr ?_, (laid.order _ _).mpr ?_, (laid.order _ _).mpr ?_, mt (laid.mem_keys _).mp ?_⟩
  all_goals decide +kernel

end Draft

end ThreeAddress
