import ThreeAddress.Interference

/-!
# Coloring

`InterferenceGraph.color` gives every vertex a register such that neighbours differ. Some vertices may
be pinned to a register in advance. The others are taken from the last mentioned to the first, and
each gets the lowest register that no neighbour has. This can fail although a coloring exists.
-/

namespace ThreeAddress

abbrev Coloring := Table Nat

inductive Infeasible where
  | degree (name : String) (degree budget : Nat)
  | exhausted (name : String) (budget : Nat)
  | pinned (name : String) (register budget : Nat)
  deriving DecidableEq, Repr

def Infeasible.message : Infeasible → String
  | .degree name count budget =>
    s!"`{name}` interferes with {count} variables, more than the {budget} registers available"
  | .exhausted name budget => s!"every register below {budget} is taken by a neighbour of `{name}`"
  | .pinned name register budget =>
    s!"`{name}` must live in register {register}, outside the {budget} registers available"

/-- The lowest number from `low` on that is not taken, if it is among the first `fuel`. -/
def lowestFreeFrom (taken : List Nat) : (fuel low : Nat) → Nat
  | 0, low => low
  | fuel + 1, low => if low ∈ taken then lowestFreeFrom taken fuel (low + 1) else low

/-- The lowest number that is not taken. -/
def lowestFree (taken : List Nat) : Nat := lowestFreeFrom taken taken.length 0

namespace InterferenceGraph

/-- How many registers may be used. Without a limit there are as many as the graph could need and as
the pins reach for. With a limit no vertex may have more neighbours than that. -/
def registerCount (graph : InterferenceGraph) (limit : Nat) (pins : Table Nat) :
    Except Infeasible Nat :=
  if limit = 0 then
    .ok (max (graph.maxDegree + 1) (pins.values.foldl (fun most register => max most (register + 1)) 0))
  else
    match graph.vertices.find? fun name => limit < graph.degree name with
    | some name => .error (.degree name (graph.degree name) limit)
    | none => .ok limit

/-- The coloring of the pinned vertices. Pins of names outside the graph are left out. -/
def colorPinned (graph : InterferenceGraph) (count : Nat) :
    List (String × Nat) → Coloring → Except Infeasible Coloring
  | [], coloring => .ok coloring
  | (name, register) :: rest, coloring =>
    if !graph.contains name then colorPinned graph count rest coloring
    else if count ≤ register then .error (.pinned name register count)
    else colorPinned graph count rest (coloring.set name register)

/-- The registers that the neighbours of a vertex have so far. -/
def takenBy (graph : InterferenceGraph) (coloring : Coloring) (name : String) : List Nat :=
  (graph.neighbours name).names.filterMap coloring.get?

/-- Colors the given vertices in order. -/
def colorFree (graph : InterferenceGraph) (count : Nat) :
    List String → Coloring → Except Infeasible Coloring
  | [], coloring => .ok coloring
  | name :: rest, coloring =>
    let register := lowestFree (graph.takenBy coloring name)
    if register < count then colorFree graph count rest (coloring.set name register)
    else .error (.exhausted name count)

/-- The vertices that are not pinned, the last mentioned first. -/
def free (graph : InterferenceGraph) (pins : Table Nat) : List String :=
  (graph.vertices.filter fun name => !pins.contains name).reverse

/-- A limit of 0 stands for no limit. -/
def color (graph : InterferenceGraph) (limit : Nat) (pins : Table Nat) :
    Except Infeasible Coloring := do
  let count ← graph.registerCount limit pins
  let coloring ← graph.colorPinned count pins.entries ∅
  graph.colorFree count (graph.free pins) coloring

end InterferenceGraph

end ThreeAddress
