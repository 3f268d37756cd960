import ThreeAddress.Budget
import ThreeAddress.ClassUnit
import ThreeAddress.Coloring
import ThreeAddress.Diagnostic
import ThreeAddress.Dump

/-!
# Register allocation

`Method.allocate` colors the interference graph of a method and writes the registers into its variable
table. The receiver and the parameters stay where a caller puts them. `ClassUnit.allocate` does so for
every method of a class; one that does not fit the budget keeps its registers and gets a warning.
-/

namespace ThreeAddress

/-- The registers that a caller fixes. -/
def Method.pins (method : Method) : Table Nat :=
  (method.vars.filter fun var => var.scope != .localVar).mapValues fun _ var => var.register

def Method.recolor (method : Method) (coloring : Coloring) : Method :=
  { method with
    vars := method.vars.mapValues fun name var =>
      { var with register := (coloring.get? name).getD var.register } }

/-- The coloring within `limit` registers, 0 for no limit, and the method with it. -/
def Method.allocate (method : Method) (limit : Nat) : Except Infeasible (Coloring × Method) :=
  match method.interference.color limit method.pins with
  | .ok coloring => .ok (coloring, method.recolor coloring)
  | .error infeasible => .error infeasible

/-- A class after allocation, with the warnings and the dumps that were asked for. -/
structure Allocation where
  unit : ClassUnit
  warnings : List Diagnostic
  dumps : List (Stage × String)

/-- The stages in the order in which they are dumped. -/
def Stage.all : List Stage := [.liveness, .interference]

def Method.dumps (method : Method) (stages : List Stage) : List (Stage × String) :=
  (Stage.all.filter fun stage => stages.contains stage).map fun stage =>
    (stage, Dump.ofStage method stage)

def Method.allocateFor (method : Method) (budget : Budget) : Method × List Diagnostic :=
  match budget.limit? with
  | none => (method, [])
  | some limit =>
    match method.allocate limit with
    | .ok (_, allocated) => (allocated, [])
    | .error infeasible =>
      (method, [.anywhere (.infeasible method.name budget.text infeasible.message)])

/-- Allocates registers in every method. The dumps show the stages in `stages`, method by method. -/
def ClassUnit.allocate (unit : ClassUnit) (budget : Budget) (stages : List Stage) :
    Allocation :=
  if budget = .disabled then { unit, warnings := [], dumps := [] }
  else
    let allocated := unit.methods.map fun m => m.allocateFor budget
    { unit := { unit with methods := allocated.map Prod.fst }
      warnings := allocated.flatMap Prod.snd
      dumps := unit.methods.flatMap fun m => m.dumps stages }

end ThreeAddress
