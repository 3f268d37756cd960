import ThreeAddress.Diagnostic
import ThreeAddress.Lowering.Body

/-!
# Lowering classes

All methods of a class are tried, one after the other and with one counter for their labels. Either all
of them succeed and make up a listing, or those that fail are told with the reason.
-/

namespace ThreeAddress

/-- The methods of a class that cannot be lowered. -/
structure LoweringFailure where
  unit : String
  failures : List (String × Fault)
  deriving DecidableEq, Repr

def LoweringFailure.message (failure : LoweringFailure) : String :=
  "could not generate code for " ++ toString failure.failures.length ++ " method(s) of `"
    ++ failure.unit ++ "`"

namespace ClassUnit

/-- The listing or the fault of each method, where `next` is the first number for labels. -/
def methodListings (unit : ClassUnit) : List Method → Nat → List (Method × Except Fault MethodListing)
  | [], _ => []
  | method :: rest, next =>
    let outcome := Site.listing { unit, method } next
    (method, outcome.1) :: methodListings unit rest outcome.2

def fieldListing (unit : ClassUnit) (field : Field) : FieldListing where
  access := field.access.flag
  isStatic := field.isStatic
  isFinal := field.isFinal
  name := field.name
  descriptor := unit.descriptor field.ty

def failed? : Method × Except Fault MethodListing → Option (String × Fault)
  | (method, .error fault) => some (method.name, fault)
  | (_, .ok _) => none

def lowered? : Method × Except Fault MethodListing → Option MethodListing
  | (_, .ok listing) => some listing
  | (_, .error _) => none

def lower (unit : ClassUnit) : Except LoweringFailure Listing :=
  let outcomes := unit.methodListings unit.methods 0
  match outcomes.filterMap failed? with
  | [] =>
    .ok {
      name := unit.name
      access := unit.access.flag
      isFinal := unit.isFinal
      superName := unit.superName
      fields := unit.fields.map unit.fieldListing
      methods := outcomes.filterMap lowered? }
  | failures => .error { unit := unit.name, failures }

/-- The text of the listing. -/
def emit (unit : ClassUnit) : Except LoweringFailure String :=
  match unit.lower with
  | .ok listing => .ok listing.text
  | .error failure => .error failure

/-- Like `emit`, with an error for each method that fails. -/
def generate (unit : ClassUnit) : Option String × List Diagnostic :=
  match unit.emit with
  | .ok text => (some text, [])
  | .error failure =>
    (none, failure.failures.map fun (method, fault) =>
      .anywhere (.notLowered method fault.message))

end ClassUnit

end ThreeAddress
