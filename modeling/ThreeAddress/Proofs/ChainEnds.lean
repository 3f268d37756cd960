import Mathlib.Data.List.Perm.Subperm
import ThreeAddress.Proofs.Follow

/-!
# Where chains of jumps end

`Method.Traces` is the search for the end of a chain with no bound on its rounds. In a linked method it
ends, since every round but the last meets a label of the table that was not met before, so the rounds
that `Site.follow` allows are enough. It ends at an instruction that is no unconditional jump, or else on
a cycle of such jumps (`Method.Circles`): the label that it would go on to was met before, and from there
jumps have led here. `Site.follow_ends` is the main statement.
-/

namespace ThreeAddress

/-- Names of a table, each listed once, are no more than the table has. -/
theorem Table.length_le_size {α : Type} {table : Table α} {names : List String} (nodup : names.Nodup)
    (known : ∀ name ∈ names, name ∈ table.keys) : names.length ≤ table.size :=
  calc
    names.length ≤ table.keys.length := (List.subperm_of_subset nodup known).length_le
    _ = table.size := List.length_map _

namespace Method

variable {method : Method}

/-- The search from `label`, where the labels in `seen` were met already, ends at `last`. -/
inductive Traces (method : Method) : (seen : List String) → (label last : String) → Prop
  | rest {seen : List String} {label : String} {id : Nat} {inst : Instruction} :
    method.label? label = some id → method.instruction? id = some inst →
    (∀ next, inst.statement ≠ .goto next) → Traces method seen label label
  | closed {seen : List String} {label next : String} {id : Nat} {inst : Instruction} :
    method.label? label = some id → method.instruction? id = some inst →
    inst.statement = .goto next → next ∈ seen → Traces method seen label label
  | onward {seen : List String} {label next last : String} {id : Nat} {inst : Instruction} :
    method.label? label = some id → method.instruction? id = some inst →
    inst.statement = .goto next → next ∉ seen → Traces method (next :: seen) next last →
    Traces method seen label last

/-- The instruction is an unconditional jump, and such jumps alone lead from its target back to it. -/
def Circles (method : Method) (id : Nat) : Prop :=
  ∃ inst label next, method.instruction? id = some inst ∧ inst.statement = .goto label ∧
    method.label? label = some next ∧ method.Forwards next id

theorem Forwards.trans {first second third : Nat} (h : method.Forwards first second)
    (h' : method.Forwards second third) : method.Forwards first third := by
  induction h with
  | refl => exact h'
  | step hinst hgoto hlabel _ ih => exact .step hinst hgoto hlabel (ih h')

/-- The label is in the table, and jumps lead from its instruction to the one with the given number. -/
def LeadsTo (method : Method) (id : Nat) (label : String) : Prop :=
  ∃ start, method.label? label = some start ∧ method.Forwards start id

-- By induction on the search. That the labels met so far lead to the present instruction is what makes a
-- jump to one of them close a cycle.
theorem Traces.ends (linked : method.Linked) {seen : List String} {label last : String} {id : Nat}
    (h : method.Traces seen label last) (hlabel : method.label? label = some id)
    (hseen : ∀ met ∈ seen, method.LeadsTo id met) :
    ∃ lastId inst, method.label? last = some lastId ∧ method.instruction? lastId = some inst ∧
      method.Forwards id lastId ∧
      ((∀ next, inst.statement ≠ .goto next) ∨ method.Circles lastId) := by
  induction h generalizing id with
  | rest hfound hinst hrest =>
    obtain rfl : id = _ := Option.some.inj (hlabel.symm.trans hfound)
    exact ⟨id, _, hlabel, hinst, .refl id, .inl hrest⟩
  | closed hfound hinst hgoto hmet =>
    obtain rfl : id = _ := Option.some.inj (hlabel.symm.trans hfound)
    obtain ⟨start, hstart, hforwards⟩ := hseen _ hmet
    exact ⟨id, _, hlabel, hinst, .refl id, .inr ⟨_, _, start, hinst, hgoto, hstart, hforwards⟩⟩
  | onward hfound hinst hgoto _ _ ih =>
    obtain rfl : id = _ := Option.some.inj (hlabel.symm.trans hfound)
    obtain ⟨nextId, hnext, -⟩ := linked.label?_of_goto hinst hgoto
    have hstep : method.Forwards id nextId := .step hinst hgoto hnext (.refl nextId)
    obtain ⟨lastId, lastInst, hlast, hlastInst, hforwards, hend⟩ := ih hnext <| by
      intro met hmet
      rcases List.mem_cons.mp hmet with rfl | hmet
      · exact ⟨nextId, hnext, .refl nextId⟩
      · obtain ⟨start, hstart, hid⟩ := hseen met hmet
        exact ⟨start, hstart, hid.trans hstep⟩
    exact ⟨lastId, lastInst, hlast, hlastInst, hstep.trans hforwards, hend⟩

end Method

namespace Site

variable {site : Site}

-- The bound is never reached: with no rounds left there would be more labels met than there are.
theorem followWithin_traces (linked : site.method.Linked) {fuel : Nat} {seen : List String}
    {label : String} (hlabel : label ∈ site.method.labels.keys) (nodup : seen.Nodup)
    (known : ∀ met ∈ seen, met ∈ site.method.labels.keys)
    (hfuel : site.method.labels.size < fuel + seen.length) :
    ∃ last, site.followWithin fuel seen label = .ok last ∧ site.method.Traces seen label last := by
  induction fuel generalizing seen label with
  | zero =>
    have := Table.length_le_size nodup known
    omega
  | succ fuel ih =>
    obtain ⟨id, hid⟩ := Table.mem_keys_iff.mp hlabel
    obtain ⟨inst, hinst, -⟩ := (linked.label?_iff label id).mp hid
    have hfound : site.method.label? label = some id := hid
    simp only [followWithin, hfound, hinst]
    split
    · next next hgoto =>
      split
      · next hmet => exact ⟨label, rfl, .closed hfound hinst hgoto hmet⟩
      · next hfresh =>
        obtain ⟨nextId, hnext, -⟩ := linked.label?_of_goto hinst hgoto
        have hnext : next ∈ site.method.labels.keys := Table.mem_keys_iff.mpr ⟨nextId, hnext⟩
        obtain ⟨last, hlast, htraces⟩ := ih hnext (List.nodup_cons.mpr ⟨hfresh, nodup⟩)
          (List.forall_mem_cons.mpr ⟨hnext, known⟩) (by rw [List.length_cons]; omega)
        exact ⟨last, hlast, .onward hfound hinst hgoto hfresh htraces⟩
    · next hrest => exact ⟨label, rfl, .rest hfound hinst hrest⟩

/-- Following a label of a built method ends, whatever cycles its jumps form. The label found is in the
table, jumps alone lead to it, and what stands there is no jump or one of a cycle of jumps. -/
theorem follow_ends {draft : Draft} (built : draft.build = .ok site.method) {label : String}
    (hlabel : label ∈ site.method.labels.keys) :
    ∃ last, site.follow label = .ok last ∧ site.method.Traces [label] label last ∧
      last ∈ site.method.labels.keys ∧
      ∃ id lastId inst, site.method.label? label = some id ∧ site.method.label? last = some lastId ∧
        site.method.instruction? lastId = some inst ∧ site.method.Forwards id lastId ∧
        ((∀ next, inst.statement ≠ .goto next) ∨ site.method.Circles lastId) := by
  have linked := Draft.linked_of_build built
  obtain ⟨id, hid⟩ := Table.mem_keys_iff.mp hlabel
  have nodup : [label].Nodup := List.nodup_cons.mpr ⟨List.not_mem_nil, .nil⟩
  obtain ⟨last, hlast, htraces⟩ := followWithin_traces linked hlabel nodup
    (List.forall_mem_singleton.mpr hlabel) (Nat.lt_succ_of_lt (Nat.lt_succ_self _))
  have hseen : ∀ met ∈ [label], site.method.LeadsTo id met :=
    List.forall_mem_singleton.mpr ⟨id, hid, .refl id⟩
  obtain ⟨lastId, inst, hlastId, hinst, hforwards, hend⟩ := htraces.ends linked hid hseen
  exact ⟨last, hlast, htraces, Table.mem_keys_iff.mpr ⟨lastId, hlastId⟩, id, lastId, inst, hid, hlastId,
    hinst, hforwards, hend⟩

end Site

/-- A jump into a chain whose last instruction carries two labels and jumps to the second of them. -/
def whirl : Draft :=
  let start := (((Draft.new "whirl" .void).label "enter").push (.goto "hop")).push (.ret none .void)
  let chain := (start.label "hop").push (.goto "spin")
  ((chain.label "spin").label "turn").push (.goto "turn")

def whirlMethod : Method :=
  match whirl.build with
  | .ok method => method
  | .error _ => whirl.unlinked

def whirlSite : Site where
  unit := { name := "Whirl", super? := none, access := .pub, isFinal := false, imports := [],
            fields := [], methods := [whirlMethod] }
  method := whirlMethod

/-- Both labels of the last instruction are met before the chain is seen to close. -/
theorem follow_ends_whirl :
    whirl.build = .ok whirlSite.method ∧ whirlSite.follow "enter" = .ok "turn" ∧
      whirlMethod.Traces ["enter"] "enter" "turn" ∧ whirlMethod.Forwards 1 4 ∧
      whirlMethod.Circles 4 := by
  have built : whirl.build = .ok whirlSite.method := rfl
  have hlabel : "enter" ∈ whirlSite.method.labels.keys := by decide
  obtain ⟨last, hlast, htraces, -, id, lastId, inst, hid, hlastId, hinst, hforwards, hend⟩ :=
    Site.follow_ends built hlabel
  cases hlast.symm.trans (show whirlSite.follow "enter" = .ok "turn" from rfl)
  cases hid.symm.trans (show whirlMethod.label? "enter" = some 1 from rfl)
  cases hlastId.symm.trans (show whirlMethod.label? "turn" = some 4 from rfl)
  refine ⟨built, hlast, htraces, hforwards, hend.resolve_left fun hrest => ?_⟩
  cases hinst
  exact hrest "turn" rfl

end ThreeAddress
