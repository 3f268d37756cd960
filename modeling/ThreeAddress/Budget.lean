/-!
# Register budgets

How many registers the allocation may use in each method, and how that is written: `off`, `auto`, or a
decimal of at least -1.
-/

namespace ThreeAddress

inductive Budget where
  /-- No allocation. -/
  | disabled
  /-- The registers stay as they are, but the analyses are run for inspection. -/
  | natural
  /-- As many registers as the interference needs. -/
  | unconstrained
  | limited (registers : Nat)
  deriving DecidableEq, Repr

namespace Budget

def digitValue? (c : Char) : Option Nat :=
  if c.isDigit then some (c.toNat - '0'.toNat) else none

/-- The value of a non-empty row of digits. -/
def naturalOf? : List Char → Option Nat
  | [] => none
  | digits => digits.foldlM (fun value c => (digitValue? c).map (10 * value + ·)) 0

/-- The value of a decimal that may have a sign. -/
def decimalOf? : List Char → Option Int
  | '-' :: digits => (naturalOf? digits).map fun value => -(value : Int)
  | '+' :: digits => (naturalOf? digits).map Int.ofNat
  | digits => (naturalOf? digits).map Int.ofNat

/-- Decimals are read into 64 bits. -/
def fitsInt64 (value : Int) : Bool :=
  -9223372036854775808 ≤ value && value ≤ 9223372036854775807

def ofDecimal? (value : Int) : Option Budget :=
  if !fitsInt64 value then none
  else if value = -1 then some .disabled
  else if value = 0 then some .natural
  else if 0 < value then some (.limited value.toNat)
  else none

def ofText? (text : String) : Option Budget :=
  if text = "off" then some .disabled
  else if text = "auto" then some .unconstrained
  else (decimalOf? text.toList).bind ofDecimal?

/-- What is said about a text that is no budget. -/
def refusal (text : String) : String :=
  s!"invalid register budget `{text}`, expected `off`, `auto` or an integer of at least -1"

def text : Budget → String
  | .disabled => "-1"
  | .natural => "0"
  | .unconstrained => "auto"
  | .limited registers => toString registers

/-- The limit for a coloring, if registers are to be chosen at all; 0 is no limit. -/
def limit? : Budget → Option Nat
  | .disabled | .natural => none
  | .unconstrained => some 0
  | .limited registers => some registers

end Budget

end ThreeAddress
