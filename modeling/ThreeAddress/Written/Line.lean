import ThreeAddress.Statement
import ThreeAddress.Written.Operand

/-!
# Reading the lines of a body

    line   = name ":"
           / "goto" name ";"
           / "if" "(" rhs ")" "goto" name ";"
           / "ret" typed [element] ";"
           / call ";"
           / element ":=" typed rhs ";"
    rhs    = "!" typed element / call / element [operator typed element]
    call   = ("invokevirtual" / "invokestatic" / "invokespecial")
             "(" element "," string *("," element) ")" typed
           / ("new" / "arraylength") "(" element *("," element) ")" typed
           / "getfield" "(" element "," element ")" typed
           / "putfield" "(" element "," element "," element ")" typed

The type written behind an operator is read and dropped, since the operator fixes it. The places of
labels are kept in the cursor, also those in a line that turns out to be wrong.
-/

namespace ThreeAddress.Written

open Parse

inductive Line where
  | label (label : String)
  | statement (statement : Statement)
  deriving DecidableEq, Repr

def binaryOperator? : Token → Option Operator
  | .mark .plus => some .add
  | .mark .minus => some .sub
  | .mark .star => some .mul
  | .mark .slash => some .div
  | .mark .andAnd => some .and
  | .mark .orOr => some .or
  | .mark .less => some .lt
  | .mark .greater => some .gt
  | .mark .lessEqual => some .le
  | .mark .greaterEqual => some .ge
  | .mark .equalEqual => some .eq
  | .mark .bangEqual => some .ne
  | _ => none

/-- Moves past a binary operator if there is one. -/
def operator : Parse (Option Operator) := fun cursor =>
  match cursor.rest with
  | (token, _) :: _ =>
    match binaryOperator? token with
    | some op => (some (some op), cursor.advance)
    | none => (some none, cursor)
  | [] => (some none, cursor)

def labelUse : Parse String := do
  let (label, span) ← name "a label"
  modify fun cursor => { cursor with labels := cursor.labels.setNew label span }
  pure label

def labelDefinition : Parse String := do
  let (label, span) ← name "a label"
  advance
  modify fun cursor => { cursor with labels := cursor.labels.set label span }
  pure label

def getField : Parse Statement := do
  let object ← element
  let _ ← mark .comma "`,` after the object"
  let field ← element
  let _ ← mark .rightParen "`)`"
  let ty ← typed
  pure (.getField object field ty)

def putField : Parse Statement := do
  let object ← element
  let _ ← mark .comma "`,` after the object"
  let field ← element
  let _ ← mark .comma "`,` after the field"
  let value ← element
  let _ ← mark .rightParen "`)`"
  let _ ← typed
  pure (.putField object field value)

/-- The name of the method, which `new` and `arraylength` do without. -/
def methodName : Invocation → Parse (Option String)
  | .virtual | .static | .special => do
    let _ ← mark .comma "`,` after the call target"
    let method ← str "a method name"
    pure (some method)
  | .new | .arrayLength => pure none

def argsWithin : Nat → Parse (List Element)
  | 0 => pure []
  | fuel + 1 => do
    let more ← accept (Token.isMark .comma)
    if more then do
      let arg ← element
      let args ← argsWithin fuel
      pure (arg :: args)
    else pure []

def invocation (invocation : Invocation) : Parse Statement := do
  let target ← element
  let method? ← methodName invocation
  let args ← withinRest argsWithin
  let _ ← mark .rightParen "`)` to close the argument list"
  let ret ← typed
  pure (.call { invocation, target, method?, args, ret })

def call : Parse Statement := do
  let (word, span) ← name "an invocation"
  let _ ← mark .leftParen "`(`"
  match Invocation.ofText? word with
  | some kind => invocation kind
  | none =>
    if word = "getfield" then getField
    else if word = "putfield" then putField
    else failAt span (.unknownInvocation word)

/-- Whether a word and an opening parenthesis come next. -/
def Cursor.atCall (cursor : Cursor) : Bool :=
  cursor.peek Token.isName && cursor.peekNext (Token.isMark .leftParen)

/-- A value that begins with the given element. -/
def afterOperand (left : Element) : Parse Statement := do
  let op? ← operator
  match op? with
  | none => pure (.element left)
  | some op => do
    let _ ← typed
    let right ← element
    pure (.binary { op, left, right })

def rhs : Parse Statement := do
  let negated ← accept (Token.isMark .bang)
  if negated then do
    let _ ← typed
    let operand ← element
    pure (.unary { op := .not, operand })
  else do
    let cursor ← look
    if cursor.atCall then call
    else do
      let left ← element
      afterOperand left

def condition : Parse Condition := do
  let cursor ← look
  let value ← rhs
  match value with
  | .element e => pure (.single e)
  | .unary u => pure (.unary u)
  | .binary b => pure (.binary b)
  | _ => failAt cursor.span (.unexpected "a condition" "a call")

def assignment : Parse Statement := do
  let cursor ← look
  let dest ← element
  match dest.name? with
  | none => failAt cursor.span (.unexpected "a variable to assign to" dest.text)
  | some _ => do
    let _ ← mark .colonEqual "`:=`"
    let ty ← typed
    let value ← rhs
    pure (.assign dest ty value)

def jump : Parse Statement := do
  advance
  let label ← labelUse
  pure (.goto label)

def branch : Parse Statement := do
  advance
  advance
  let condition ← condition
  let _ ← mark .rightParen "`)` after the condition"
  let _ ← keyword "goto"
  let label ← labelUse
  pure (.branch condition label)

def ret : Parse Statement := do
  advance
  let ty ← typed
  let cursor ← look
  if cursor.peek (Token.isMark .semicolon) then pure (.ret none ty)
  else do
    let value ← element
    pure (.ret (some value) ty)

def statement : Parse Statement := do
  let cursor ← look
  if cursor.peek (Token.isKeyword "goto") && cursor.peekNext Token.isName then jump
  else if cursor.peek (Token.isKeyword "if") && cursor.peekNext (Token.isMark .leftParen) then branch
  else if cursor.peek (Token.isKeyword "ret") && cursor.peekNext (Token.isMark .dot) then ret
  else if cursor.atCall then call
  else assignment

def line : Parse Line := do
  let cursor ← look
  if cursor.peek Token.isName && cursor.peekNext (Token.isMark .colon) then do
    let label ← labelDefinition
    pure (.label label)
  else do
    let statement ← statement
    let _ ← mark .semicolon "`;` after a statement"
    pure (.statement statement)

end ThreeAddress.Written
