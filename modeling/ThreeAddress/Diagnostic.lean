/-!
# Diagnostics

What can be said about a source text and about the methods read from it. A diagnostic is a cause and,
if it concerns a place in the text, a span; severity, code, wording and notes follow from the cause.
-/

namespace ThreeAddress

/-- A piece of a source file, in bytes, from `start` up to and without `stop`. -/
structure Span where
  file : Nat
  start : Nat
  stop : Nat
  deriving DecidableEq, Repr

/-- The smallest span that holds both. -/
def Span.cover (span other : Span) : Span where
  file := span.file
  start := min span.start other.start
  stop := max span.stop other.stop

inductive Severity where
  | error
  | warning
  deriving DecidableEq, Repr

inductive Diagnostic.Cause where
  | invalidToken
  | unexpected (expected found : String)
  | literalRange (literal : String)
  | unknownInvocation (name : String)
  | unknownLabel (method label : String)
  | duplicateLabel (method label : String)
  | danglingLabel (method label : String)
  /-- The registers of a method do not fit the budget. -/
  | infeasible (method budget reason : String)
  /-- A method cannot be lowered to stack code. -/
  | notLowered (method reason : String)
  deriving DecidableEq, Repr

namespace Diagnostic.Cause

def severity : Cause → Severity
  | .infeasible .. => .warning
  | _ => .error

def code : Cause → String
  | .invalidToken => "EP00"
  | .unexpected .. => "EP01"
  | .literalRange _ => "EP02"
  | .unknownInvocation _ => "EP03"
  | .unknownLabel .. => "EP04"
  | .duplicateLabel .. => "EP05"
  | .danglingLabel .. => "EP06"
  | .infeasible .. => "WA00"
  | .notLowered .. => "EE00"

def message : Cause → String
  | .invalidToken => "invalid token"
  | .unexpected expected found => s!"expected {expected}, found {found}"
  | .literalRange literal => s!"integer literal `{literal}` is out of range"
  | .unknownInvocation name => s!"unknown invocation `{name}`"
  | .unknownLabel method label => s!"jump to undefined label `{label}` in `{method}`"
  | .duplicateLabel method label => s!"label `{label}` is defined twice in `{method}`"
  | .danglingLabel method label => s!"label `{label}` ends the body of `{method}`"
  | .infeasible method budget _ =>
    s!"cannot allocate the variables of `{method}` with register budget `{budget}`"
  | .notLowered method _ => s!"could not generate code for `{method}`"

def notes : Cause → List String
  | .literalRange _ => ["integer literals must fit in a signed 32-bit integer"]
  | .unknownInvocation _ =>
    ["expected one of `invokevirtual`, `invokestatic`, `invokespecial`, `new` or `arraylength`"]
  | .danglingLabel .. => ["every label must be followed by an instruction in the same method"]
  | .infeasible _ _ reason => [reason, "the method keeps the registers of its variable table"]
  | .notLowered _ reason => [reason]
  | _ => []

/-- What is written at the place that the diagnostic points to. -/
def remark : Cause → String
  | .unexpected expected _ => s!"expected {expected}"
  | _ => ""

end Diagnostic.Cause

structure Diagnostic where
  cause : Diagnostic.Cause
  span? : Option Span
  deriving DecidableEq, Repr

namespace Diagnostic

def isError (diagnostic : Diagnostic) : Bool :=
  diagnostic.cause.severity == .error

def pointing (span : Span) (cause : Cause) : Diagnostic := ⟨cause, some span⟩

/-- A diagnostic about something with no place in the text. -/
def anywhere (cause : Cause) : Diagnostic := ⟨cause, none⟩

end Diagnostic

end ThreeAddress
