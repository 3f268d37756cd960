import ThreeAddress.Proofs.Separation

/-!
# Runs with variables in places

An `Interpretation` leaves open what the instructions of a method do: each one chooses a successor and
new values for the variables it defines, and it may change a world outside of the method, knowing the
values of the variables it uses and that world. A run keeps the variables in a file under the places
that `place` gives them. With names as places the file is an environment; with registers as places it is
a register file, and variables may share one.

`allocate_keeps_run`: after an allocation the run in registers is the run in an environment, as far as
anything can be observed.
-/

namespace ThreeAddress

open Liveness (liveInOf)

/-- Where the body of a method begins. -/
def Method.entry (method : Method) : Successor :=
  if method.instructions.isEmpty then .exit else .instruction 1

structure Interpretation (method : Method) (V W : Type) where
  next : Instruction → List V → W → Successor
  value : Instruction → String → List V → W → V
  world : Instruction → List V → W → W
  next_mem : ∀ inst ∈ method.instructions, ∀ values world, next inst values world ∈ inst.successors

structure PlacedState (L V W : Type) where
  position : Successor
  file : L → V
  world : W

section
variable {L L' V W : Type}

def readAll (place : String → Option L) (file : L → V) : List String → Option (List V)
  | [] => some []
  | name :: rest => do
    let location ← place name
    let values ← readAll place file rest
    some (file location :: values)

def writeAll [DecidableEq L] (place : String → Option L) (value : String → V) (file : L → V) :
    List String → Option (L → V)
  | [] => some file
  | name :: rest => do
    let location ← place name
    writeAll place value (Function.update file location (value name)) rest

/-- The variables that a body touches have places. -/
def Covers (method : Method) (place : String → Option L) : Prop :=
  ∀ inst ∈ method.instructions, ∀ name,
    name ∈ inst.statement.defs ∨ name ∈ inst.statement.uses → ∃ location, place name = some location

theorem Method.Declares.covers {method : Method} (h : method.Declares) :
    Covers method method.register? :=
  fun inst hinst name htouch => exists_register? (h inst hinst name htouch)

theorem readAll_isSome {place : String → Option L} {names : List String}
    (h : ∀ name ∈ names, ∃ location, place name = some location) (file : L → V) :
    ∃ values, readAll place file names = some values := by
  induction names with
  | nil => exact ⟨[], rfl⟩
  | cons name rest ih =>
    obtain ⟨location, hlocation⟩ := h name List.mem_cons_self
    obtain ⟨values, hvalues⟩ := ih fun other hother => h other (List.mem_cons_of_mem _ hother)
    exact ⟨file location :: values, by simp [readAll, hlocation, hvalues]⟩

theorem readAll_congr {place : String → Option L} {place' : String → Option L'} {file : L → V}
    {file' : L' → V} {names : List String}
    (h : ∀ name ∈ names, (place name).map file = (place' name).map file') :
    readAll place file names = readAll place' file' names := by
  induction names with
  | nil => rfl
  | cons name rest ih =>
    have hname := h name List.mem_cons_self
    have hrest := ih fun other hother => h other (List.mem_cons_of_mem _ hother)
    simp only [readAll, hrest]
    cases hplace : place name <;> cases hplace' : place' name <;> simp_all

end

namespace Interpretation

variable {L L' V W : Type} [DecidableEq L] [DecidableEq L'] {method : Method}

/-- There is no step from the exit, and none over a variable without a place. -/
def step (meaning : Interpretation method V W) (place : String → Option L)
    (state : PlacedState L V W) : Option (PlacedState L V W) :=
  match state.position with
  | .exit => none
  | .instruction id => do
    let inst ← method.instruction? id
    let values ← readAll place state.file inst.statement.uses
    let file ← writeAll place (fun name => meaning.value inst name values state.world) state.file
      inst.statement.defs
    some {
      position := meaning.next inst values state.world
      file
      world := meaning.world inst values state.world }

def run (meaning : Interpretation method V W) (place : String → Option L) :
    Nat → PlacedState L V W → Option (PlacedState L V W)
  | 0, state => some state
  | count + 1, state => (meaning.step place state).bind (meaning.run place count)

/-- Both states are at the same instruction of the method, in the same world, and agree on the
variables that are live there. -/
structure InStep (method : Method) (place : String → Option L) (place' : String → Option L')
    (state : PlacedState L V W) (state' : PlacedState L' V W) : Prop where
  position_eq : state.position = state'.position
  world_eq : state.world = state'.world
  exists_inst : ∀ {id}, state.position = .instruction id → ∃ inst, method.instruction? id = some inst
  agree : ∀ {id}, state.position = .instruction id →
    Agree (liveInOf method.liveness id) place place' state.file state'.file

variable {place : String → Option L} {place' : String → Option L'}
  {state : PlacedState L V W} {state' : PlacedState L' V W}

-- The step splits on what the instruction writes: nothing, or one variable.
theorem step_inStep (meaning : Interpretation method V W) (linked : method.Linked)
    (covers : Covers method place) (covers' : Covers method place')
    (separates : Separates method.liveness place) (separates' : Separates method.liveness place')
    (h : InStep method place place' state state') (hposition : state.position ≠ .exit) :
    ∃ after after', meaning.step place state = some after ∧
      meaning.step place' state' = some after' ∧ InStep method place place' after after' := by
  obtain ⟨position, file, world⟩ := state
  obtain ⟨position', file', world'⟩ := state'
  obtain rfl : position = position' := h.position_eq
  obtain rfl : world = world' := h.world_eq
  cases position with
  | exit => exact absurd rfl hposition
  | instruction id =>
    obtain ⟨inst, hinst⟩ := h.exists_inst rfl
    have hmem := Method.mem_of_instruction? hinst
    have agree : Agree (liveInOf method.liveness id) place place' file file' := h.agree rfl
    have hread : readAll place file inst.statement.uses = readAll place' file' inst.statement.uses :=
      readAll_congr fun name hname => Method.agree_uses hinst agree hname
    obtain ⟨values, hvalues⟩ :=
      readAll_isSome (fun name hname => covers inst hmem name (.inr hname)) file
    have hsucc : ∀ {next}, meaning.next inst values world = .instruction next →
        .instruction next ∈ inst.successors :=
      fun hnext => hnext ▸ meaning.next_mem inst hmem values world
    have hexists : ∀ {next}, meaning.next inst values world = .instruction next →
        ∃ other, method.instruction? next = some other :=
      fun hnext => linked.exists_of_successor hmem (hsucc hnext)
    cases hdef : inst.statement.def? with
    | none =>
      have hnone : inst.statement.defs = [] := by simp [Statement.defs, hdef]
      refine ⟨⟨meaning.next inst values world, file, meaning.world inst values world⟩,
        ⟨meaning.next inst values world, file', meaning.world inst values world⟩, ?_, ?_, ?_⟩
      · simp [step, hinst, hvalues, hnone, writeAll]
      · simp [step, hinst, ← hread, hvalues, hnone, writeAll]
      · exact ⟨rfl, rfl, hexists, fun hnext => Method.agree_keep hinst hdef agree (hsucc hnext)⟩
    | some written =>
      have hsingle : inst.statement.defs = [written] := by simp [Statement.defs, hdef]
      have htouch : written ∈ inst.statement.defs := hsingle ▸ List.mem_singleton_self written
      obtain ⟨location, hlocation⟩ := covers inst hmem written (.inl htouch)
      obtain ⟨location', hlocation'⟩ := covers' inst hmem written (.inl htouch)
      let value := meaning.value inst written values world
      refine ⟨⟨meaning.next inst values world, Function.update file location value,
          meaning.world inst values world⟩,
        ⟨meaning.next inst values world, Function.update file' location' value,
          meaning.world inst values world⟩, ?_, ?_, ?_⟩
      · simp [step, hinst, hvalues, hsingle, writeAll, hlocation, value]
      · simp [step, hinst, ← hread, hvalues, hsingle, writeAll, hlocation', value]
      · exact ⟨rfl, rfl, hexists, fun hnext => Method.agree_write hinst separates separates' hdef
          hlocation hlocation' agree (hsucc hnext) value⟩

theorem run_inStep (meaning : Interpretation method V W) (linked : method.Linked)
    (covers : Covers method place) (covers' : Covers method place')
    (separates : Separates method.liveness place) (separates' : Separates method.liveness place')
    (h : InStep method place place' state state') (count : Nat) :
    Option.Rel (InStep method place place') (meaning.run place count state)
      (meaning.run place' count state') := by
  induction count generalizing state state' with
  | zero => exact .some h
  | succ count ih =>
    by_cases hposition : state.position = .exit
    · have hposition' : state'.position = .exit := h.position_eq ▸ hposition
      simp only [run, step, hposition, hposition', Option.bind_none]
      exact .none
    · obtain ⟨after, after', hstep, hstep', hafter⟩ :=
        step_inStep meaning linked covers covers' separates separates' h hposition
      simp only [run, hstep, hstep', Option.bind_some]
      exact ih hafter

end Interpretation

open Interpretation (InStep)

theorem Method.entry_exists {method : Method} {id : Nat} (h : method.entry = .instruction id) :
    id = 1 ∧ ∃ inst, method.instruction? id = some inst := by
  unfold Method.entry at h
  split at h
  · cases h
  · next hne =>
    cases h
    cases hinsts : method.instructions with
    | nil => simp [hinsts] at hne
    | cons first rest => exact ⟨rfl, first, by simp [instruction?, hinsts]⟩

/-- After an allocation, a run in the new registers goes through the same instructions and worlds as
the run in an environment, for as long as it lasts, and the two agree on the live variables all the way.
It stops nowhere but at the exit. -/
theorem allocate_keeps_run {method allocated : Method} {limit : Nat} {coloring : Coloring}
    (prepared : method.Prepared) (h : method.allocate limit = .ok (coloring, allocated))
    {V W : Type} (meaning : Interpretation method V W) (environment : String → V) (file : Nat → V)
    (world : W)
    (agree : Agree (liveInOf method.liveness 1) some allocated.register? environment file)
    (count : Nat) :
    Option.Rel (InStep method some allocated.register?)
        (meaning.run some count ⟨method.entry, environment, world⟩)
        (meaning.run allocated.register? count ⟨method.entry, file, world⟩) ∧
      ∀ state, meaning.run some count ⟨method.entry, environment, world⟩ = some state →
        (meaning.step some state = none ↔ state.position = .exit) := by
  have linked := prepared.linked
  have covers : Covers method some := fun _ _ name _ => ⟨name, rfl⟩
  have covers' : Covers method allocated.register? := by
    obtain ⟨-, rfl⟩ := Method.allocate_ok prepared.pinsDistinct h
    exact (prepared.declares.mapVars _).covers
  have separates := separates_some method.liveness
  have separates' := Method.separates_of_allocate prepared h
  have start : InStep method some allocated.register? ⟨method.entry, environment, world⟩
      ⟨method.entry, file, world⟩ := by
    refine ⟨rfl, rfl, fun hid => (Method.entry_exists hid).2, fun hid => ?_⟩
    obtain ⟨rfl, -⟩ := Method.entry_exists hid
    exact agree
  have hrun := Interpretation.run_inStep meaning linked covers covers' separates separates' start count
  refine ⟨hrun, fun state hstate => ?_⟩
  rw [hstate] at hrun
  generalize meaning.run allocated.register? count ⟨method.entry, file, world⟩ = result at hrun
  cases hrun with
  | some hinStep =>
    constructor
    · intro hnone
      by_contra hposition
      obtain ⟨after, -, hstep, -⟩ := Interpretation.step_inStep meaning linked covers covers'
        separates separates' hinStep hposition
      rw [hnone] at hstep
      cases hstep
    · intro hposition
      simp only [Interpretation.step, hposition]

/-- Passes its parameter on through three variables, round and round. -/
def relay : Draft :=
  let copy (dest source : String) : Statement :=
    .assign (.operand dest .int32) .int32 (.element (.operand source .int32))
  let start : Draft := { Draft.new "relay" .int32 with isStatic := true }
  (((((start.addParam "n" .int32).label "again").push (copy "x" "n")).push (copy "y" "x")).push
    (copy "z" "y")).push (.branch (.single (.operand "z" .int32)) "again")

def relayMethod : Method :=
  match relay.build with
  | .ok method => method
  | .error _ => relay.unlinked

-- Three registers do for four variables: `x` and `z` share one.
def relayColoring : Coloring := ⟨[("n", 0), ("z", 1), ("y", 2), ("x", 1)], by decide⟩

/-- Every instruction adds up what it uses and goes on to its first successor; the world counts. -/
def summing : Interpretation relayMethod Int32 Nat where
  next inst _ _ := inst.successors.headD .exit
  value _ _ values _ := values.sum
  world _ _ steps := steps + 1
  next_mem inst hinst _ _ := by
    have h : ∀ inst ∈ relayMethod.instructions, inst.successors.headD .exit ∈ inst.successors := by
      decide +kernel
    exact h inst hinst

-- The two beginnings differ in all but the parameter.
def relayEnvironment (name : String) : Int32 := if name = "n" then 5 else 1

def relayFile (register : Nat) : Int32 := if register = 0 then 5 else 2

theorem allocate_keeps_run_relay :
    relay.build = .ok relayMethod ∧
      relayMethod.allocate 3 = .ok (relayColoring, relayMethod.recolor relayColoring) ∧
      Agree (liveInOf relayMethod.liveness 1) some (relayMethod.recolor relayColoring).register?
        relayEnvironment relayFile ∧
      Option.Rel (InStep relayMethod some (relayMethod.recolor relayColoring).register?)
        (summing.run some 10 ⟨relayMethod.entry, relayEnvironment, 0⟩)
        (summing.run (relayMethod.recolor relayColoring).register? 10
          ⟨relayMethod.entry, relayFile, 0⟩) := by
  have built : relay.build = .ok relayMethod := rfl
  have allocated : relayMethod.allocate 3
      = .ok (relayColoring, relayMethod.recolor relayColoring) := by decide +kernel
  have agree : ∀ name ∈ (liveInOf relayMethod.liveness 1).names, (some name).map relayEnvironment
      = ((relayMethod.recolor relayColoring).register? name).map relayFile := by decide +kernel
  exact ⟨built, allocated, agree,
    (allocate_keeps_run (.built built) allocated summing _ _ 0 agree 10).1⟩

end ThreeAddress
