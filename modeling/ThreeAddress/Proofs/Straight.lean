import ThreeAddress.Lowering.Body
import ThreeAddress.Proofs.Success

/-!
# Straight code

Most of what lowering emits is a row of instructions without labels and jumps. `Site.Pushes` says of
such a row that it leaves a given number of values more on the stack than it found, whatever it found,
that it never reaches below them, and that it stays within the registers of the frame. One lemma for
each function of `Site` says how much it pushes.
-/

namespace ThreeAddress

namespace StackOp

/-- The register that the instruction names. -/
def register? : StackOp → Option Nat
  | .iload register | .aload register | .istore register | .astore register
  | .iinc register _ => some register
  | _ => none

/-- The instruction names no register from `limit` on. -/
def Within (limit : Nat) (op : StackOp) : Prop :=
  ∀ register, op.register? = some register → register < limit

/-- Control goes on to the next item and nowhere else. -/
def Plain (op : StackOp) : Prop := op.target? = none ∧ op.isTerminator = false

theorem within_of_none {limit : Nat} {op : StackOp} (h : op.register? = none) : op.Within limit := by
  intro register hregister
  rw [h] at hregister
  cases hregister

end StackOp

/-- The depth of the stack after a row of plain instructions. -/
inductive Straight : List StackOp → Nat → Nat → Prop
  | nil (depth : Nat) : Straight [] depth depth
  | cons {op : StackOp} {rest : List StackOp} {depth after : Nat} : op.Plain → op.pops ≤ depth →
    Straight rest (depth - op.pops + op.pushes) after → Straight (op :: rest) depth after

theorem Straight.append {first second : List StackOp} {depth middle after : Nat}
    (h : Straight first depth middle) (h' : Straight second middle after) :
    Straight (first ++ second) depth after := by
  induction h with
  | nil => exact h'
  | cons plain hpops _ ih => exact .cons plain hpops (ih h')

theorem Straight.plain {row : List StackOp} {depth after : Nat} (h : Straight row depth after)
    {op : StackOp} (hop : op ∈ row) : op.Plain := by
  induction h with
  | nil => cases hop
  | cons plain _ _ ih =>
    rcases List.mem_cons.mp hop with rfl | hop
    · exact plain
    · exact ih hop

@[simp] theorem ops_append (first second : List StackOp) :
    ops (first ++ second) = ops first ++ ops second :=
  List.map_append

namespace Method

/-- A number of registers is within the frame if an instance method has it or a variable needs it. -/
theorem le_maxLocals_iff {method : Method} {count : Nat} :
    count ≤ method.maxLocals ↔ count ≤ (if method.isStatic then 0 else 1) ∨
      ∃ var ∈ method.vars.values, count ≤ var.register + 1 :=
  le_foldl_max

theorem register_lt_maxLocals {method : Method} {name : String} {register : Nat}
    (h : method.register? name = some register) : register < method.maxLocals := by
  obtain ⟨var, hvar, rfl⟩ := Option.map_eq_some_iff.mp h
  exact le_maxLocals_iff.mpr (.inr ⟨var, Table.mem_values_iff.mpr ⟨name, hvar⟩, Nat.le_refl _⟩)

theorem zero_lt_maxLocals {method : Method} (h : method.isStatic = false) : 0 < method.maxLocals := by
  refine le_maxLocals_iff.mpr (.inl ?_)
  simp [h]

end Method

namespace Site

/-- The items are straight code that pushes `count` values. -/
def Pushes (site : Site) (items : List Item) (count : Nat) : Prop :=
  ∃ row, items = ops row ∧ (∀ depth, Straight row depth (depth + count)) ∧
    ∀ op ∈ row, op.Within site.method.maxLocals

variable {site : Site}

theorem pushes_nil : site.Pushes [] 0 :=
  ⟨[], rfl, fun depth => .nil depth, fun _ h => absurd h List.not_mem_nil⟩

theorem Pushes.append {first second : List Item} {m n : Nat} (h : site.Pushes first m)
    (h' : site.Pushes second n) : site.Pushes (first ++ second) (m + n) := by
  obtain ⟨row, rfl, straight, within⟩ := h
  obtain ⟨row', rfl, straight', within'⟩ := h'
  refine ⟨row ++ row', (ops_append row row').symm, fun depth => ?_, fun op hop => ?_⟩
  · rw [← Nat.add_assoc]
    exact (straight depth).append (straight' (depth + m))
  · rcases List.mem_append.mp hop with hop | hop
    · exact within op hop
    · exact within' op hop

theorem Pushes.snoc {items : List Item} {m n : Nat} {op : StackOp} (h : site.Pushes items m)
    (plain : op.Plain) (hpops : op.pops ≤ m) (within : op.Within site.method.maxLocals)
    (hcount : m - op.pops + op.pushes = n) : site.Pushes (items ++ ops [op]) n := by
  obtain ⟨row, rfl, straight, withinRow⟩ := h
  refine ⟨row ++ [op], (ops_append row [op]).symm, fun depth => ?_, fun other hother => ?_⟩
  · have hafter : depth + m - op.pops + op.pushes = depth + n := by omega
    exact (straight depth).append (.cons plain (by omega) (hafter ▸ .nil _))
  · rcases List.mem_append.mp hother with hother | hother
    · exact withinRow other hother
    · rw [List.mem_singleton.mp hother]
      exact within

/-- One instruction that takes nothing. -/
theorem pushes_one {op : StackOp} (plain : op.Plain) (hpops : op.pops = 0) (hpushes : op.pushes = 1)
    (within : op.Within site.method.maxLocals) : site.Pushes (ops [op]) 1 :=
  pushes_nil.snoc plain (by omega) within (by omega)

theorem plain_intConstant (value : Int32) : (intConstant value).Plain ∧
    (intConstant value).pops = 0 ∧ (intConstant value).pushes = 1 ∧
    (intConstant value).register? = none := by
  unfold intConstant
  split
  · exact ⟨⟨rfl, rfl⟩, rfl, rfl, rfl⟩
  · split
    · exact ⟨⟨rfl, rfl⟩, rfl, rfl, rfl⟩
    · split <;> exact ⟨⟨rfl, rfl⟩, rfl, rfl, rfl⟩

theorem within_register {op : StackOp} {name : String} {register : Nat}
    (hop : op.register? = some register) (h : site.method.register? name = some register) :
    op.Within site.method.maxLocals := by
  intro other hother
  rw [hop] at hother
  cases hother
  exact Method.register_lt_maxLocals h

-- Register 0 is named only for a field of an instance, in a method of an instance.
theorem pushes_receiver {name : String} {field : Field} (h : site.implicitField name = .ok field)
    (hfield : field.isStatic = false) : site.Pushes (ops [.aload 0]) 1 := by
  refine pushes_one ⟨rfl, rfl⟩ rfl rfl fun register hregister => ?_
  cases hregister
  apply Method.zero_lt_maxLocals
  unfold implicitField at h
  split at h
  · split at h
    · next allowed =>
      cases h
      simpa [hfield] using allowed
    · cases h
  · cases h

theorem loadVariable_pushes {name : String} {ty : Ty} {items : List Item}
    (h : site.loadVariable name ty = .ok items) : site.Pushes items 1 := by
  unfold loadVariable at h
  split at h
  · next register hregister =>
    split at h
    · cases h
      exact pushes_one ⟨rfl, rfl⟩ rfl rfl (within_register rfl hregister)
    · cases h
      exact pushes_one ⟨rfl, rfl⟩ rfl rfl (within_register rfl hregister)
    · cases h
  · obtain ⟨field, hfield, h⟩ := bind_ok.mp h
    split at h
    · cases h
      exact pushes_one ⟨rfl, rfl⟩ rfl rfl (StackOp.within_of_none rfl)
    · next instanceField =>
      cases h
      have hreceiver := pushes_receiver hfield (by simpa using instanceField)
      exact hreceiver.snoc ⟨rfl, rfl⟩ (Nat.le_refl 1) (StackOp.within_of_none rfl) rfl

theorem load_pushes {element : Element} {items : List Item} (h : site.load element = .ok items) :
    site.Pushes items 1 := by
  induction element generalizing items with
  | literal value ty =>
    obtain ⟨number, -, h⟩ := bind_ok.mp h
    cases h
    obtain ⟨plain, hpops, hpushes, hnone⟩ := plain_intConstant number
    exact pushes_one plain hpops hpushes (StackOp.within_of_none hnone)
  | operand name ty =>
    cases ty with
    | classRef owner => cases h
    | _ => exact loadVariable_pushes h
  | slot name index ty ih =>
    simp only [load, bind_ok] at h
    obtain ⟨array, harray, position, hposition, h⟩ := h
    have hboth := (loadVariable_pushes harray).append (ih hposition)
    split at h
    · cases h
      exact hboth.snoc ⟨rfl, rfl⟩ (Nat.le_refl 2) (StackOp.within_of_none rfl) rfl
    · cases h
      exact hboth.snoc ⟨rfl, rfl⟩ (Nat.le_refl 2) (StackOp.within_of_none rfl) rfl
    · cases h

theorem loadAll_pushes {elements : List Element} {items : List Item}
    (h : site.loadAll elements = .ok items) : site.Pushes items elements.length := by
  induction elements generalizing items with
  | nil =>
    cases h
    exact pushes_nil
  | cons element rest ih =>
    simp only [loadAll, bind_ok] at h
    obtain ⟨first, hfirst, others, hothers, h⟩ := h
    cases h
    rw [List.length_cons, Nat.add_comm]
    exact (load_pushes hfirst).append (ih hothers)

-- ---------------------------------------------------------------------------
-- Stores and members
-- ---------------------------------------------------------------------------

/-- What is laid out below a value and the instruction that then stores it. -/
theorem place_pushes {dest : Element} {before : List Item} {store : StackOp}
    (h : site.place dest = .ok (before, store)) :
    ∃ below, site.Pushes before below ∧ store.Plain ∧ store.pops = below + 1 ∧ store.pushes = 0 ∧
      store.Within site.method.maxLocals := by
  unfold place at h
  split at h
  · cases h
  · cases h
  · split at h
    · next register hregister =>
      split at h
      · cases h
        exact ⟨0, pushes_nil, ⟨rfl, rfl⟩, rfl, rfl, within_register rfl hregister⟩
      · cases h
        exact ⟨0, pushes_nil, ⟨rfl, rfl⟩, rfl, rfl, within_register rfl hregister⟩
      · cases h
    · obtain ⟨field, hfield, h⟩ := bind_ok.mp h
      split at h
      · cases h
        exact ⟨0, pushes_nil, ⟨rfl, rfl⟩, rfl, rfl, StackOp.within_of_none rfl⟩
      · next instanceField =>
        cases h
        have hreceiver := pushes_receiver hfield (by simpa using instanceField)
        exact ⟨1, hreceiver, ⟨rfl, rfl⟩, rfl, rfl, StackOp.within_of_none rfl⟩
  · simp only [bind_ok] at h
    obtain ⟨array, harray, position, hposition, h⟩ := h
    have hboth := (loadVariable_pushes harray).append (load_pushes hposition)
    split at h
    · cases h
      exact ⟨2, hboth, ⟨rfl, rfl⟩, rfl, rfl, StackOp.within_of_none rfl⟩
    · cases h
      exact ⟨2, hboth, ⟨rfl, rfl⟩, rfl, rfl, StackOp.within_of_none rfl⟩
    · cases h

theorem getField_pushes {object field : Element} {ty : Ty} {items : List Item}
    (h : site.getField object field ty = .ok items) : site.Pushes items 1 := by
  obtain ⟨name, -, h⟩ := bind_ok.mp h
  split at h
  · cases h
    exact pushes_one ⟨rfl, rfl⟩ rfl rfl (StackOp.within_of_none rfl)
  · simp only [bind_ok] at h
    obtain ⟨owner, -, target, htarget, h⟩ := h
    cases h
    exact (load_pushes htarget).snoc ⟨rfl, rfl⟩ (Nat.le_refl 1) (StackOp.within_of_none rfl) rfl

theorem putField_pushes {object field value : Element} {items : List Item}
    (h : site.putField object field value = .ok items) : site.Pushes items 0 := by
  obtain ⟨name, -, h⟩ := bind_ok.mp h
  split at h
  · obtain ⟨stored, hstored, h⟩ := bind_ok.mp h
    cases h
    exact (load_pushes hstored).snoc ⟨rfl, rfl⟩ (Nat.le_refl 1) (StackOp.within_of_none rfl) rfl
  · simp only [bind_ok] at h
    obtain ⟨owner, -, target, htarget, stored, hstored, h⟩ := h
    cases h
    have hboth := (load_pushes htarget).append (load_pushes hstored)
    exact hboth.snoc ⟨rfl, rfl⟩ (Nat.le_refl 2) (StackOp.within_of_none rfl) rfl

theorem unary_pushes {unary : Unary} {items : List Item} (h : site.unary unary = .ok items) :
    site.Pushes items 1 := by
  unfold Site.unary at h
  split at h
  · obtain ⟨operand, hoperand, h⟩ := bind_ok.mp h
    cases h
    have hone : site.Pushes (ops [.iconst 1]) 1 :=
      pushes_one ⟨rfl, rfl⟩ rfl rfl (StackOp.within_of_none rfl)
    have hboth := (load_pushes hoperand).append hone
    have hxor : site.Pushes (operand ++ ops [.iconst 1] ++ ops [.ixor]) 1 :=
      hboth.snoc ⟨rfl, rfl⟩ (Nat.le_refl 2) (StackOp.within_of_none rfl) rfl
    rwa [List.append_assoc] at hxor
  · cases h

theorem arithmetic_pushes {binary : Binary} {items : List Item}
    (h : site.arithmetic binary = .ok items) : site.Pushes items 1 := by
  unfold arithmetic at h
  split at h
  · cases h
  · next op hop =>
    simp only [bind_ok] at h
    obtain ⟨left, hleft, right, hright, h⟩ := h
    cases h
    have hboth := (load_pushes hleft).append (load_pushes hright)
    -- All six instructions take two numbers to one.
    have heffect : op.Plain ∧ op.pops = 2 ∧ op.pushes = 1 ∧ op.register? = none := by
      unfold Operator.arithmeticOp? at hop
      split at hop <;> cases hop <;> exact ⟨⟨rfl, rfl⟩, rfl, rfl, rfl⟩
    obtain ⟨plain, hpops, hpushes, hnone⟩ := heffect
    exact hboth.snoc plain (by omega) (StackOp.within_of_none hnone) (by omega)

-- ---------------------------------------------------------------------------
-- Calls
-- ---------------------------------------------------------------------------

theorem descriptor_eq_void_iff {unit : ClassUnit} {ty : Ty} : unit.descriptor ty = "V" ↔ ty = .void := by
  constructor
  · intro h
    have hlist := congrArg String.toList h
    cases ty <;> simp [ClassUnit.descriptor] at hlist
    rfl
  · rintro rfl
    rfl

/-- How many values a call leaves: none if it returns nothing, but the length of an array is always
pushed. -/
def callPushes (call : Call) : Nat :=
  if call.ret = .void ∧ call.invocation ≠ .arrayLength then 0 else 1

theorem invoke_pushes {dispatch : Dispatch} {owner method : String} {call : Call} {below : List Item}
    {items : List Item} {m n : Nat} (hbelow : site.Pushes below m)
    (h : site.invoke dispatch owner method call = .ok items)
    (hm : m = (if dispatch = .static then 0 else 1) + n) :
    site.Pushes (below ++ items) (n + if call.ret = .void then 0 else 1) := by
  obtain ⟨args, hargs, h⟩ := bind_ok.mp h
  cases h
  rw [← List.append_assoc]
  refine (hbelow.append (loadAll_pushes hargs)).snoc ⟨rfl, rfl⟩ ?_ (StackOp.within_of_none rfl) ?_
  · simp only [StackOp.pops, Invoke.pops, List.length_map]
    cases dispatch <;> simp at hm ⊢ <;> omega
  · simp only [StackOp.pops, StackOp.pushes, Invoke.pops, Invoke.pushes, List.length_map,
      descriptor_eq_void_iff]
    cases dispatch <;> simp at hm ⊢ <;> omega

theorem newObject_pushes {call : Call} {items : List Item} (h : site.newObject call = .ok items) :
    site.Pushes items 1 ∧ call.ret ≠ .void := by
  unfold newObject at h
  split at h
  · next item hret =>
    refine ⟨?_, by simp [hret]⟩
    unfold newArray at h
    split at h
    · next length =>
      simp only [bind_ok] at h
      obtain ⟨size, hsize, op, hop, h⟩ := h
      cases h
      have heffect : op.Plain ∧ op.pops = 1 ∧ op.pushes = 1 ∧ op.register? = none := by
        unfold newArrayOp at hop
        split at hop
        · cases hop; exact ⟨⟨rfl, rfl⟩, rfl, rfl, rfl⟩
        · cases hop; exact ⟨⟨rfl, rfl⟩, rfl, rfl, rfl⟩
        · split at hop <;> cases hop
          exact ⟨⟨rfl, rfl⟩, rfl, rfl, rfl⟩
      obtain ⟨plain, hpops, hpushes, hnone⟩ := heffect
      exact (load_pushes hsize).snoc plain (by omega) (StackOp.within_of_none hnone) (by omega)
    · cases h
  · obtain ⟨owner, howner, h⟩ := bind_ok.mp h
    cases h
    refine ⟨pushes_one ⟨rfl, rfl⟩ rfl rfl (StackOp.within_of_none rfl), fun hvoid => ?_⟩
    -- Only a reference can be created.
    unfold newClass at howner
    simp only [hvoid, Ty.category] at howner
    split at howner <;> simp at howner

theorem call_pushes {call : Call} {items : List Item} (h : site.call call = .ok items) :
    site.Pushes items (callPushes call) := by
  unfold Site.call at h
  unfold callPushes
  split at h
  · next hinvocation =>
    simp only [bind_ok] at h
    obtain ⟨method, -, owner, -, target, htarget, invoked, hinvoked, h⟩ := h
    cases h
    simpa [hinvocation] using invoke_pushes (n := 0) (load_pushes htarget) hinvoked rfl
  · next hinvocation =>
    simp only [bind_ok] at h
    obtain ⟨method, -, owner, -, h⟩ := h
    simpa [hinvocation] using invoke_pushes (n := 0) pushes_nil h rfl
  · next hinvocation =>
    simp only [bind_ok] at h
    obtain ⟨method, -, owner, -, target, htarget, invoked, hinvoked, h⟩ := h
    cases h
    simpa [hinvocation] using invoke_pushes (n := 0) (load_pushes htarget) hinvoked rfl
  · obtain ⟨hpushes, hret⟩ := newObject_pushes h
    simpa [hret] using hpushes
  · next hinvocation =>
    obtain ⟨target, htarget, h⟩ := bind_ok.mp h
    cases h
    simp only [hinvocation, ne_eq, not_true_eq_false, and_false, if_false]
    exact (load_pushes htarget).snoc ⟨rfl, rfl⟩ (Nat.le_refl 1) (StackOp.within_of_none rfl) rfl

/-- An object made and constructed in one go. The constructor must return nothing. -/
theorem construction_pushes {construction : Construction} {items : List Item}
    (hinit : construction.init.ret = .void) (h : site.construction construction = .ok items) :
    site.Pushes items 0 := by
  unfold Site.construction at h
  simp only [bind_ok] at h
  obtain ⟨⟨before, store⟩, hplace, owner, -, invoked, hinvoked, h⟩ := h
  cases h
  obtain ⟨below, hbefore, plain, hpops, hpushes, within⟩ := place_pushes hplace
  have hnew : site.Pushes (before ++ ops [.new owner]) (below + 1) :=
    hbefore.snoc ⟨rfl, rfl⟩ (Nat.zero_le _) (StackOp.within_of_none rfl) rfl
  have hdup : site.Pushes (before ++ ops [.new owner] ++ ops [.dup]) (below + 2) :=
    hnew.snoc ⟨rfl, rfl⟩ (Nat.le_add_left 1 below) (StackOp.within_of_none rfl) rfl
  have hinvoke := invoke_pushes (n := below + 1) hdup hinvoked (by simp; omega)
  rw [hinit, if_pos rfl, Nat.add_zero] at hinvoke
  have hstore := hinvoke.snoc plain (by omega) within (show _ = 0 by omega)
  simpa [ops] using hstore

end Site

end ThreeAddress
