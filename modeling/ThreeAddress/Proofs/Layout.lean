import ThreeAddress.Proofs.Linked

/-!
# The variable table of a built method

Every variable that a statement reads or writes has an entry, and the entries have the registers 0, 1,
2 and so on in the order of the table. So no two variables of a freshly built method share a register.
-/

namespace ThreeAddress

/-- The variables of a table are in the registers 0, 1, 2, ... in order. -/
def Table.Stacked (vars : Table Variable) : Prop :=
  vars.values.map Variable.register = List.range vars.size

namespace Table.Stacked

variable {vars : Table Variable}

theorem register_eq (h : vars.Stacked) {index : Nat} {entry : String × Variable}
    (hentry : vars.entries[index]? = some entry) : entry.2.register = index := by
  have hlt : index < vars.size := (List.getElem?_eq_some_iff.mp hentry).1
  have hregister : (vars.values.map Variable.register)[index]? = some entry.2.register := by
    simp [Table.values, hentry]
  rw [h, List.getElem?_range hlt] at hregister
  exact (Option.some.inj hregister).symm

/-- The register of an entry is its place in the table. -/
theorem getElem?_register (h : vars.Stacked) {name : String} {var : Variable}
    (hget : vars.get? name = some var) : vars.entries[var.register]? = some (name, var) := by
  obtain ⟨index, hindex⟩ := List.mem_iff_getElem?.mp (Table.get?_eq_some_iff.mp hget)
  rw [h.register_eq hindex]
  exact hindex

theorem register_inj (h : vars.Stacked) {a b : String} {va vb : Variable}
    (ha : vars.get? a = some va) (hb : vars.get? b = some vb) (heq : va.register = vb.register) :
    a = b := by
  have hplaces := (h.getElem?_register ha).symm.trans (heq ▸ h.getElem?_register hb)
  exact congrArg Prod.fst (Option.some.inj hplaces)

end Table.Stacked

namespace VariableLayout

theorem stacked_declare {vars : Table Variable} {name : String} {ty : Ty} {scope : Scope}
    (h : vars.Stacked) : (declare vars name ty scope).Stacked := by
  unfold declare
  split
  · exact h
  · next unknown =>
    have fresh : name ∉ vars.keys := fun hin => unknown (Table.contains_iff.mpr hin)
    have hentries : (vars.set name ⟨vars.size, ty, scope⟩).entries
        = vars.entries ++ [(name, ⟨vars.size, ty, scope⟩)] := Table.entries_set_of_not_mem fresh
    show (List.map Prod.snd _).map Variable.register = List.range (List.length _)
    rw [hentries, List.map_append, List.map_append, List.length_append, List.length_singleton,
      List.range_succ]
    exact congrArg (· ++ [vars.size]) h

@[simp] theorem mem_keys_declare {vars : Table Variable} {name key : String} {ty : Ty}
    {scope : Scope} : key ∈ (declare vars name ty scope).keys ↔ key = name ∨ key ∈ vars.keys := by
  unfold declare
  split
  · next known =>
    constructor
    · exact Or.inr
    · rintro (rfl | h)
      · exact Table.contains_iff.mp known
      · exact h
  · exact Table.mem_keys_set

theorem stacked_declareElement {vars : Table Variable} {element : Element} (h : vars.Stacked) :
    (declareElement vars element).Stacked := by
  induction element generalizing vars with
  | literal => exact h
  | operand name ty =>
    simp only [declareElement]
    split
    · exact h
    · exact stacked_declare h
  | slot name index ty ih => exact ih (stacked_declare h)

@[simp] theorem mem_keys_declareElement {vars : Table Variable} {element : Element} {key : String} :
    key ∈ (declareElement vars element).keys ↔ key ∈ element.reads ∨ key ∈ vars.keys := by
  induction element generalizing vars with
  | literal => simp [declareElement, Element.reads]
  | operand name ty =>
    simp only [declareElement, Element.reads]
    split <;> simp
  | slot name index ty ih =>
    simp only [declareElement, Element.reads, ih, mem_keys_declare, List.mem_cons]
    constructor
    · rintro (h | h | h) <;> simp [h]
    · rintro ((h | h) | h) <;> simp [h]

theorem stacked_signature (isStatic : Bool) (params : List Parameter) :
    (signature isStatic params).Stacked := by
  have step : ∀ (params : List Parameter) (vars : Table Variable), vars.Stacked →
      (params.foldl (fun vars param => declare vars param.name param.ty .parameter) vars).Stacked := by
    intro params
    induction params with
    | nil => exact fun _ h => h
    | cons param rest ih => exact fun _ h => ih _ (stacked_declare h)
  refine step params _ ?_
  split
  · rfl
  · exact stacked_declare rfl

theorem foldl_declareElement {elements : List Element} {vars : Table Variable} (h : vars.Stacked) :
    (elements.foldl declareElement vars).Stacked ∧
      ∀ key, key ∈ (elements.foldl declareElement vars).keys ↔
        (∃ element ∈ elements, key ∈ element.reads) ∨ key ∈ vars.keys := by
  induction elements generalizing vars with
  | nil => simpa using h
  | cons first rest ih =>
    have hfirst : (declareElement vars first).Stacked := stacked_declareElement h
    obtain ⟨stacked, keys⟩ := ih hfirst
    refine ⟨stacked, fun key => ?_⟩
    rw [List.foldl_cons, keys, mem_keys_declareElement]
    constructor
    · rintro (⟨element, hin, hkey⟩ | hkey | hkey)
      · exact .inl ⟨element, List.mem_cons_of_mem _ hin, hkey⟩
      · exact .inl ⟨first, List.mem_cons_self, hkey⟩
      · exact .inr hkey
    · rintro (⟨element, hin, hkey⟩ | hkey)
      · rcases List.mem_cons.mp hin with rfl | hin
        · exact .inr (.inl hkey)
        · exact .inl ⟨element, hin, hkey⟩
      · exact .inr (.inr hkey)

theorem stacked_layout (isStatic : Bool) (params : List Parameter) (body : List Statement) :
    (layout isStatic params body).Stacked :=
  (foldl_declareElement (stacked_signature isStatic params)).1

/-- What a statement touches is read by one of the elements it mentions. -/
theorem mentions_of_touched {statement : Statement} {name : String}
    (h : name ∈ statement.defs ∨ name ∈ statement.uses) :
    ∃ element ∈ mentions statement, name ∈ element.reads := by
  have operands_mentioned : ∀ element ∈ statement.operands, element ∈ mentions statement := by
    intro element hin
    cases statement <;> first | exact List.mem_cons_of_mem _ hin | exact hin
  rcases h with hdef | huse
  · unfold Statement.defs Statement.def? at hdef
    split at hdef
    · next dest ty declared rhs =>
      refine ⟨_, List.mem_cons_self, ?_⟩
      simp only [Element.name?] at hdef
      split at hdef
      · simp at hdef
      · next notClass => simpa [Element.reads, notClass] using hdef
    · simp at hdef
  · obtain ⟨element, hin, hread⟩ := List.mem_flatMap.mp huse
    exact ⟨element, operands_mentioned element hin, hread⟩

theorem mem_keys_layout {isStatic : Bool} {params : List Parameter} {body : List Statement}
    {statement : Statement} {name : String} (hin : statement ∈ body)
    (h : name ∈ statement.defs ∨ name ∈ statement.uses) :
    name ∈ (layout isStatic params body).keys := by
  obtain ⟨element, hmention, hread⟩ := mentions_of_touched h
  refine ((foldl_declareElement (stacked_signature isStatic params)).2 name).mpr (.inl ?_)
  exact ⟨element, List.mem_flatMap.mpr ⟨statement, hin, hmention⟩, hread⟩

end VariableLayout

/-- Every variable that the body touches is in the variable table. -/
def Method.Declares (method : Method) : Prop :=
  ∀ inst ∈ method.instructions, ∀ name,
    name ∈ inst.statement.defs ∨ name ∈ inst.statement.uses → name ∈ method.vars.keys

namespace Draft

theorem stacked_of_build {draft : Draft} {method : Method} (h : draft.build = .ok method) :
    method.vars.Stacked := by
  obtain ⟨labels, linked, -, -, rfl⟩ := build_ok h
  exact VariableLayout.stacked_layout _ _ _

theorem declares_of_build {draft : Draft} {method : Method} (h : draft.build = .ok method) :
    method.Declares := by
  obtain ⟨labels, linked, -, hlink, rfl⟩ := build_ok h
  intro inst hinst name htouch
  obtain ⟨index, hget⟩ := List.mem_iff_getElem?.mp hinst
  obtain ⟨old, hold, heq, -⟩ := ControlFlow.link_source hlink hget
  have hstatement : inst.statement ∈ draft.body.map Prod.snd := by
    rw [getElem?_instructions] at hold
    obtain ⟨line, hline, rfl⟩ := Option.map_eq_some_iff.mp hold
    rw [heq]
    exact List.mem_map_of_mem (List.mem_of_getElem? hline)
  exact VariableLayout.mem_keys_layout hstatement htouch

end Draft

end ThreeAddress
