import Mathlib.Data.List.Dedup
import ThreeAddress.Proofs.AllocationHistory
import ThreeAddress.Proofs.Closed
import ThreeAddress.Proofs.Descriptors
import ThreeAddress.Proofs.Identifiers

/-!
# Room for what is passed

A caller puts the receiver and the arguments into the first registers of the frame, one into each. The
layout gives registers to names, so a parameter that is called like one before it, or like the receiver,
gets none. The limit of locals then covers what is passed only by way of other variables that are in high
registers. `ClassUnit.locals_cover_iff` is the main statement. Allocation does not change this, as it
leaves the registers of all that is passed as they are.
-/

namespace ThreeAddress

/-- The names of what a method is passed. -/
def passedNames (isStatic : Bool) (params : List Parameter) : List String :=
  (if isStatic then [] else ["this"]) ++ params.map Parameter.name

namespace VariableLayout

variable {vars : Table Variable}

theorem entries_declare (vars : Table Variable) (name : String) (ty : Ty) (scope : Scope) :
    ∃ added, (declare vars name ty scope).entries = vars.entries ++ added ∧
      ∀ entry ∈ added, entry.2.scope = scope := by
  unfold declare
  split
  · exact ⟨[], (List.append_nil _).symm, fun _ h => absurd h List.not_mem_nil⟩
  · next unknown =>
    have fresh : name ∉ vars.keys := fun hin => unknown (Table.contains_iff.mpr hin)
    refine ⟨_, Table.entries_set_of_not_mem fresh, ?_⟩
    simp

/-- What the body mentions is added behind what is there, as locals. -/
def ExtendsByLocals (vars extended : Table Variable) : Prop :=
  ∃ added, extended.entries = vars.entries ++ added ∧ ∀ entry ∈ added, entry.2.scope = .localVar

theorem ExtendsByLocals.refl (vars : Table Variable) : ExtendsByLocals vars vars :=
  ⟨[], (List.append_nil _).symm, fun _ h => absurd h List.not_mem_nil⟩

theorem ExtendsByLocals.trans {middle extended : Table Variable} (h : ExtendsByLocals vars middle)
    (h' : ExtendsByLocals middle extended) : ExtendsByLocals vars extended := by
  obtain ⟨first, hfirst, hlocal⟩ := h
  obtain ⟨second, hsecond, hlocal'⟩ := h'
  refine ⟨first ++ second, by rw [hsecond, hfirst, List.append_assoc], ?_⟩
  exact List.forall_mem_append.mpr ⟨hlocal, hlocal'⟩

theorem extendsByLocals_declareElement (vars : Table Variable) (element : Element) :
    ExtendsByLocals vars (declareElement vars element) := by
  induction element generalizing vars with
  | literal => exact .refl vars
  | operand name ty =>
    simp only [declareElement]
    split
    · exact .refl vars
    · exact entries_declare vars name ty .localVar
  | slot name index ty ih => exact .trans (entries_declare vars name (.array ty) .localVar) (ih _)

theorem extendsByLocals_layout (isStatic : Bool) (params : List Parameter) (body : List Statement) :
    ExtendsByLocals (signature isStatic params) (layout isStatic params body) := by
  have step : ∀ (elements : List Element) (vars : Table Variable),
      ExtendsByLocals vars (elements.foldl declareElement vars) := by
    intro elements
    induction elements with
    | nil => exact .refl
    | cons element rest ih => exact fun vars => (extendsByLocals_declareElement vars element).trans (ih _)
  exact step _ _

theorem mem_keys_signature {isStatic : Bool} {params : List Parameter} {key : String} :
    key ∈ (signature isStatic params).keys ↔ key ∈ passedNames isStatic params := by
  have step : ∀ (params : List Parameter) (vars : Table Variable),
      key ∈ (params.foldl (fun vars param => declare vars param.name param.ty .parameter) vars).keys ↔
        key ∈ vars.keys ∨ key ∈ params.map Parameter.name := by
    intro params
    induction params with
    | nil => simp
    | cons param rest ih =>
      intro vars
      rw [List.foldl_cons, ih, mem_keys_declare, List.map_cons, List.mem_cons]
      tauto
  have start : key ∈ (if isStatic then ∅ else declare ∅ "this" .receiver .receiver : Table Variable).keys ↔
      key ∈ (if isStatic then [] else ["this"] : List String) := by
    have none : key ∉ (∅ : Table Variable).keys := List.not_mem_nil
    cases isStatic <;> simp [none]
  rw [signature, step, start, passedNames, List.mem_append]

theorem scope_signature {isStatic : Bool} {params : List Parameter} {entry : String × Variable}
    (h : entry ∈ (signature isStatic params).entries) : entry.2.scope ≠ .localVar := by
  have step : ∀ (params : List Parameter) (vars : Table Variable),
      (∀ entry ∈ vars.entries, entry.2.scope ≠ .localVar) →
      ∀ entry ∈ (params.foldl (fun vars param => declare vars param.name param.ty .parameter)
        vars).entries, entry.2.scope ≠ .localVar := by
    intro params
    induction params with
    | nil => exact fun _ h => h
    | cons param rest ih =>
      intro vars hvars
      refine ih _ ?_
      obtain ⟨added, hadded, hscope⟩ := entries_declare vars param.name param.ty .parameter
      rw [hadded, List.forall_mem_append]
      exact ⟨hvars, fun entry hentry => by rw [hscope entry hentry]; decide⟩
  refine step params _ ?_ entry h
  cases isStatic
  · obtain ⟨added, hadded, hscope⟩ := entries_declare ∅ "this" .receiver .receiver
    intro entry hentry
    rw [if_neg (by decide), hadded] at hentry
    rw [hscope entry hentry]
    decide
  · exact fun _ h => absurd h List.not_mem_nil

-- The keys are the names without repetition, though perhaps in another order.
theorem size_signature (isStatic : Bool) (params : List Parameter) :
    (signature isStatic params).size = (passedNames isStatic params).dedup.length := by
  have hperm : (signature isStatic params).keys.Perm (passedNames isStatic params).dedup := by
    refine (List.perm_ext_iff_of_nodup (Table.keys_nodup _) (List.nodup_dedup _)).mpr fun key => ?_
    rw [mem_keys_signature, List.mem_dedup]
  rw [← hperm.length_eq, Table.keys, List.length_map, Table.size]

theorem length_passedNames_le_iff (isStatic : Bool) (params : List Parameter) :
    (passedNames isStatic params).length ≤ (signature isStatic params).size ↔
      (passedNames isStatic params).Nodup := by
  rw [size_signature]
  have hsub := List.dedup_sublist (passedNames isStatic params)
  constructor
  · intro hle
    exact List.dedup_eq_self.mp (hsub.eq_of_length_le hle)
  · intro nodup
    exact Nat.le_of_eq (congrArg List.length (List.dedup_eq_self.mpr nodup).symm)

end VariableLayout

namespace Method

open VariableLayout (signature)

variable {draft : Draft} {method other : Method}

theorem extendsByLocals_of_build (h : draft.build = .ok method) :
    VariableLayout.ExtendsByLocals (signature method.isStatic method.params) method.vars := by
  obtain ⟨labels, linked, -, -, rfl⟩ := Draft.build_ok h
  exact VariableLayout.extendsByLocals_layout draft.isStatic draft.params (draft.body.map Prod.snd)

/-- Receiver and parameters are in the registers below the size of the signature. -/
theorem register_lt_of_build (h : draft.build = .ok method) {name : String} {var : Variable}
    (hvar : method.vars.get? name = some var) (hscope : var.scope ≠ .localVar) :
    var.register < (signature method.isStatic method.params).size := by
  have hentry := (Draft.stacked_of_build h).getElem?_register hvar
  obtain ⟨added, hadded, hlocal⟩ := extendsByLocals_of_build h
  by_contra hbeyond
  rw [hadded, List.getElem?_append_right (Nat.le_of_not_lt hbeyond)] at hentry
  exact hscope (hlocal _ (List.mem_of_getElem? hentry))

/-- Each of these registers is that of the receiver or of a parameter. -/
theorem exists_pinned_of_build (h : draft.build = .ok method) {register : Nat}
    (hlt : register < (signature method.isStatic method.params).size) :
    ∃ name var, method.vars.get? name = some var ∧ var.scope ≠ .localVar ∧ var.register = register := by
  obtain ⟨added, hadded, -⟩ := extendsByLocals_of_build h
  have hsignature := List.getElem?_eq_getElem hlt
  have hentry := hsignature
  rw [← List.getElem?_append_left hlt, ← hadded] at hentry
  exact ⟨_, _, Table.get?_eq_some_iff.mpr (List.mem_of_getElem? hentry),
    VariableLayout.scope_signature (List.mem_of_getElem? hsignature),
    (Draft.stacked_of_build h).register_eq hentry⟩

/-- The names of what the method is passed. -/
def passed (method : Method) : List String := passedNames method.isStatic method.params

theorem length_passed (method : Method) :
    method.passed.length = (if method.isStatic then 0 else 1) + method.params.length := by
  rw [passed, passedNames, List.length_append, List.length_map]
  cases method.isStatic <;> rfl

theorem SameButLocals.passed_eq (same : method.SameButLocals other) : other.passed = method.passed := by
  rw [← same.rest]
  rfl

/-- The frame has room for what is passed if the names are different, or if a local is high up. -/
theorem length_passed_le_iff (h : draft.build = .ok method) (same : method.SameButLocals other) :
    other.passed.length ≤ other.maxLocals ↔ other.passed.Nodup ∨
      ∃ var ∈ other.vars.values, var.scope = .localVar ∧ other.passed.length ≤ var.register + 1 := by
  have hstatic : other.isStatic = method.isStatic := by rw [← same.rest]
  have hsize : method.passed.length ≤ (signature method.isStatic method.params).size ↔
      method.passed.Nodup := VariableLayout.length_passedNames_le_iff _ _
  rw [same.passed_eq]
  constructor
  · intro hle
    rcases le_maxLocals_iff.mp hle with hstart | ⟨var, hvar, hle⟩
    · -- Nothing is passed but the receiver.
      refine .inl ?_
      rw [hstatic, length_passed] at hstart
      have hnone : method.params = [] := List.length_eq_zero_iff.mp (by omega)
      rw [passed, passedNames, hnone]
      cases method.isStatic <;> simp
    · by_cases hscope : var.scope = .localVar
      · exact .inr ⟨var, hvar, hscope, hle⟩
      · refine .inl (hsize.mp (Nat.le_trans hle ?_))
        obtain ⟨name, hname⟩ := Table.mem_values_iff.mp hvar
        have hkey : name ∈ method.vars.keys := same.keys ▸ Table.mem_keys_iff.mpr ⟨var, hname⟩
        obtain ⟨old, hold⟩ := Table.mem_keys_iff.mp hkey
        have holdScope : old.scope ≠ .localVar := same.scope hold hname ▸ hscope
        rw [same.pinned hold hname holdScope]
        exact register_lt_of_build h hold holdScope
  · rintro (nodup | ⟨var, hvar, -, hle⟩)
    · have hcovers := hsize.mpr nodup
      cases hlength : method.passed.length with
      | zero => exact Nat.zero_le _
      | succ last =>
        rw [hlength] at hcovers
        obtain ⟨name, old, hold, holdScope, hregister⟩ := exists_pinned_of_build h hcovers
        have hkey : name ∈ other.vars.keys := same.keys ▸ Table.mem_keys_iff.mpr ⟨old, hold⟩
        obtain ⟨var, hvar⟩ := Table.mem_keys_iff.mp hkey
        refine le_maxLocals_iff.mpr (.inr ⟨var, Table.mem_values_iff.mpr ⟨name, hvar⟩, ?_⟩)
        have hsame : var.register = last := (same.pinned hold hvar holdScope).trans hregister
        omega
    · exact le_maxLocals_iff.mpr (.inr ⟨var, hvar, hle⟩)

theorem recolored_allocateFor (hpins : method.PinsDistinct) (budget : Budget) :
    method.Recolored (method.allocateFor budget).1 := by
  unfold allocateFor
  split
  · exact .same
  · split
    · next halloc =>
      obtain ⟨valid, rfl⟩ := allocate_ok hpins halloc
      exact .colored valid
    · exact .same

end Method

theorem Site.listing_signature {site : Site} {n n' : Nat} {lowered : MethodListing}
    (h : site.listing n = (.ok lowered, n')) :
    lowered.descriptor = site.unit.methodDescriptor site.method ∧
      lowered.isStatic = site.method.isStatic := by
  simp only [Site.listing, Emit.bind_ok, Emit.lift_ok, Emit.pure_ok] at h
  obtain ⟨body, _, -, limit, _, -, rfl, -⟩ := h
  exact ⟨rfl, rfl⟩

namespace ClassUnit

variable {unit : ClassUnit}

theorem not_mem_of_isDotted {path : String} (h : Written.isDotted path = true) :
    ';' ∉ path.toList := by
  intro hmem
  cases List.all_eq_true.mp h _ hmem

theorem imports_allocate (unit : ClassUnit) (budget : Budget) (stages : List Stage) :
    (unit.allocate budget stages).unit.imports = unit.imports := by
  unfold allocate
  split <;> rfl

/-- A method of the allocated class is one of the class but for the registers of locals. -/
theorem exists_of_mem_allocate (built : unit.Built) {budget : Budget} {stages : List Stage}
    {method : Method} (h : method ∈ (unit.allocate budget stages).unit.methods) :
    ∃ old ∈ unit.methods, ∃ draft : Draft, draft.build = .ok old ∧ old.SameButLocals method := by
  unfold allocate at h
  split at h
  · obtain ⟨draft, hbuild⟩ := built method h
    exact ⟨method, h, draft, hbuild, Method.Recolored.same.sameButLocals⟩
  · simp only [List.map_map, List.mem_map, Function.comp_apply] at h
    obtain ⟨old, hold, rfl⟩ := h
    obtain ⟨draft, hbuild⟩ := built old hold
    have prepared : old.Prepared := .built hbuild
    exact ⟨old, hold, draft, hbuild,
      (Method.recolored_allocateFor prepared.pinsDistinct budget).sameButLocals⟩

theorem locals_cover_iff {file : Nat} {source : String} (hread : (read file source).1 = some unit)
    (budget : Budget) (stages : List Stage) :
    let allocated := (unit.allocate budget stages).unit
    ∀ method lowered, (method, .ok lowered) ∈ allocated.methodListings allocated.methods 0 →
      let filled := parameterCount lowered.descriptor + if lowered.isStatic then 0 else 1
      filled ≤ lowered.maxLocals ↔
        method.passed.Nodup ∨
          ∃ var ∈ method.vars.values, var.scope = .localVar ∧ filled ≤ var.register + 1 := by
  intro allocated method lowered hmem
  obtain ⟨hmethod, n, hlisting⟩ := listing_of_mem_methodListings hmem
  obtain ⟨old, hold, draft, hbuild, same⟩ := exists_of_mem_allocate (built_of_read hread) hmethod
  have named := named_of_read hread
  have hlisting : Site.listing { unit := allocated, method } n = (.ok lowered, _) := Prod.ext hlisting rfl
  obtain ⟨hdescriptor, hstatic⟩ := Site.listing_signature hlisting
  have hlocals := (Site.listing_ok hlisting).2.2
  have hparams : method.params = old.params := by rw [← same.rest]
  have hcount : parameterCount lowered.descriptor = method.params.length := by
    rw [hdescriptor]
    refine parameterCount_methodDescriptor fun param hparam => resolvesPlain_of_isPrintable ?_ ?_
    · rw [imports_allocate]
      exact fun path hpath => not_mem_of_isDotted (named.imports path hpath)
    · exact named.params old hold param (hparams ▸ hparam)
  have hfilled : parameterCount lowered.descriptor + (if lowered.isStatic then 0 else 1)
      = method.passed.length := by
    rw [hcount, hstatic, Method.length_passed, Nat.add_comm]
  simp only [hfilled, hlocals]
  exact Method.length_passed_le_iff hbuild same

end ClassUnit

def passingText : String :=
  "Passing \x7b
.method public pair(a.i32, b.Box).V \x7b
ret.V;
\x7d
.method public static copy(x.i32, x.i32).i32 \x7b
y.i32 :=.i32 x.i32;
z.i32 :=.i32 y.i32 +.i32 x.i32;
ret.i32 z.i32;
\x7d
\x7d"

def passingUnit : ClassUnit :=
  match (read 0 passingText).1 with
  | some unit => unit
  | none => maze

/-- The names of what a method is passed, what its listing says of the frame, and the registers of its
locals. -/
def frameOf (outcome : Method × Except Fault MethodListing) :
    List String × Option (String × Bool × Nat) × List Nat :=
  (outcome.1.passed,
    outcome.2.toOption.map fun lowered => (lowered.descriptor, lowered.isStatic, lowered.maxLocals),
    (outcome.1.vars.values.filter fun var => var.scope = .localVar).map Variable.register)

/-- The second method is passed two values under one name, and its locals make up for it. -/
theorem locals_cover_iff_passing :
    (read 0 passingText).1 = some passingUnit ∧
      let allocated := (passingUnit.allocate .unconstrained []).unit
      (allocated.methodListings allocated.methods 0).map frameOf
          = [(["this", "a", "b"], some ("(ILBox;)V", false, 3), []),
            (["x", "x"], some ("(II)I", true, 3), [2, 1])] ∧
        ∀ method lowered, (method, .ok lowered) ∈ allocated.methodListings allocated.methods 0 →
          parameterCount lowered.descriptor + (if lowered.isStatic then 0 else 1) ≤ lowered.maxLocals := by
  have hread : (read 0 passingText).1 = some passingUnit := by decide +kernel
  have frames : ((passingUnit.allocate .unconstrained []).unit.methodListings
      (passingUnit.allocate .unconstrained []).unit.methods 0).map frameOf
      = [(["this", "a", "b"], some ("(ILBox;)V", false, 3), []),
        (["x", "x"], some ("(II)I", true, 3), [2, 1])] := by decide +kernel
  refine ⟨hread, frames, fun method lowered hmem => ?_⟩
  refine (ClassUnit.locals_cover_iff hread .unconstrained [] method lowered hmem).mpr ?_
  have hframe := List.mem_map_of_mem (f := frameOf) hmem
  rw [frames] at hframe
  simp only [frameOf, List.mem_cons, Prod.mk.injEq, List.not_mem_nil, or_false] at hframe
  rcases hframe with ⟨hpassed, -⟩ | ⟨-, hlisting, hlocals⟩
  · rw [hpassed]
    exact .inl (by decide)
  · have hhigh : 2 ∈ (method.vars.values.filter fun var => var.scope = .localVar).map
        Variable.register := hlocals ▸ List.mem_cons_self
    obtain ⟨var, hvar, hregister⟩ := List.mem_map.mp hhigh
    obtain ⟨hvalue, hscope⟩ := List.mem_filter.mp hvar
    simp only [Except.toOption, Option.map_some, Option.some.injEq, Prod.mk.injEq] at hlisting
    rw [hlisting.1, hlisting.2.1]
    refine .inr ⟨var, hvalue, of_decide_eq_true hscope, ?_⟩
    rw [hregister]
    decide

def twiceText : String :=
  "Twice \x7b
.method public static f(x.i32, x.i32).V \x7b
ret.V;
\x7d
.method public g(this.i32).V \x7b
ret.V;
\x7d
\x7d"

def twiceUnit : ClassUnit :=
  match (read 0 twiceText).1 with
  | some unit => unit
  | none => maze

/-- A caller fills two registers, and the frame has one. -/
theorem locals_short :
    (read 0 twiceText).1 = some twiceUnit ∧
      let allocated := (twiceUnit.allocate .unconstrained []).unit
      ∃ method lowered, (method, .ok lowered) ∈ allocated.methodListings allocated.methods 0 ∧
        lowered.descriptor = "(II)V" ∧ lowered.isStatic = true ∧
        parameterCount lowered.descriptor = 2 ∧ lowered.maxLocals = 1 := by
  have frames : ((twiceUnit.allocate .unconstrained []).unit.methodListings
      (twiceUnit.allocate .unconstrained []).unit.methods 0).map frameOf
      = [(["x", "x"], some ("(II)V", true, 1), []), (["this", "this"], some ("(I)V", false, 1), [])] := by
    decide +kernel
  refine ⟨by decide +kernel, ?_⟩
  obtain ⟨⟨method, outcome⟩, hmem, hframe⟩ := List.exists_of_mem_map (frames ▸ List.mem_cons_self)
  cases outcome with
  | error fault => simp [frameOf, Except.toOption] at hframe
  | ok lowered =>
    simp only [frameOf, Except.toOption, Option.map_some, Prod.mk.injEq, Option.some.injEq] at hframe
    obtain ⟨-, ⟨hdescriptor, hstatic, hlocals⟩, -⟩ := hframe
    exact ⟨method, lowered, hmem, hdescriptor, hstatic, by rw [hdescriptor]; decide, hlocals⟩

end ThreeAddress
