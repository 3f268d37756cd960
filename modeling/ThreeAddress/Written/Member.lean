import ThreeAddress.ClassUnit
import ThreeAddress.Draft
import ThreeAddress.Written.Line

/-!
# Reading fields and methods

    field  = "." "field" *modifier name typed ";"
    method = "." ("method" / "construct") *modifier name params typed body
    params = "(" [name typed *("," name typed)] ")"
    body   = "{" *line "}"

A line that cannot be read is skipped and the rest of its body is read on. A method whose header
cannot be read is skipped with its body.
-/

namespace ThreeAddress.Written

open Parse

structure Modifiers where
  access : Access := .package
  isStatic : Bool := false
  isFinal : Bool := false
  deriving DecidableEq, Repr

def accessOfWord? (word : String) : Option Access :=
  if word = "public" then some .pub
  else if word = "private" then some .priv
  else if word = "protected" then some .prot
  else if word = "default" then some .package
  else none

/-- Moves past an access modifier if there is one. -/
def access : Parse (Option Access) := fun cursor =>
  match cursor.rest with
  | (.name word, _) :: _ =>
    match accessOfWord? word with
    | some access => (some (some access), cursor.advance)
    | none => (some none, cursor)
  | _ => (some none, cursor)

/-- Reads modifiers as long as the word at the cursor is not itself followed by `next`, for then it is
the name that they modify. -/
def modifiersWithin (next : Mark) : Nat → Modifiers → Parse Modifiers
  | 0, modifiers => pure modifiers
  | fuel + 1, modifiers => do
    let cursor ← look
    if cursor.peek Token.isName && !cursor.peekNext (Token.isMark next) then do
      let access? ← access
      match access? with
      | some access => modifiersWithin next fuel { modifiers with access }
      | none => do
        let isStatic ← accept (Token.isKeyword "static")
        if isStatic then modifiersWithin next fuel { modifiers with isStatic := true }
        else do
          let isFinal ← accept (Token.isKeyword "final")
          if isFinal then modifiersWithin next fuel { modifiers with isFinal := true }
          else pure modifiers
    else pure modifiers

def modifiers (next : Mark) : Parse Modifiers :=
  withinRest fun fuel => modifiersWithin next fuel {}

def field : Parse Field := do
  let modifiers ← modifiers .dot
  let (name, _) ← name "a field name"
  let ty ← typed
  let _ ← mark .semicolon "`;` after a field"
  pure { name, ty, access := modifiers.access, isStatic := modifiers.isStatic,
         isFinal := modifiers.isFinal }

/-- One parameter and those behind a comma after it. -/
def paramsWithin : Nat → Draft → Parse Draft
  | 0, _ => unexpected "a parameter name"
  | fuel + 1, draft => do
    let (name, _) ← name "a parameter name"
    let ty ← typed
    let more ← accept (Token.isMark .comma)
    if more then paramsWithin fuel (draft.addParam name ty)
    else pure (draft.addParam name ty)

def params (draft : Draft) : Parse Draft := do
  let _ ← mark .leftParen "`(` to open the parameter list"
  let cursor ← look
  if cursor.peek (Token.isMark .rightParen) then pure draft
  else withinRest fun fuel => paramsWithin fuel draft

/-- The draft of a method before its signature is known. Constructors are public and return nothing,
whatever is written. -/
def openDraft (isConstructor : Bool) (name : String) (modifiers : Modifiers) : Draft :=
  let draft := if isConstructor then Draft.constructor
    else { Draft.new name .void with access := modifiers.access }
  { draft with isStatic := modifiers.isStatic, isFinal := modifiers.isFinal }

/-- All of a method up to the brace that opens its body, with the span of its name. -/
def methodHeader (isConstructor : Bool) : Parse (Draft × Span) := do
  let modifiers ← modifiers .leftParen
  let (name, span) ← name "a method name"
  let draft ← params (openDraft isConstructor name modifiers)
  let _ ← mark .rightParen "`)` to close the parameter list"
  let ret ← typed
  let _ ← mark .leftBrace "`\x7b` to open the method body"
  pure (if isConstructor then draft else { draft with ret }, span)

def addLine (draft : Draft) : Line → Draft
  | .label label => draft.label label
  | .statement statement => draft.push statement

def bodyWithin : Nat → Draft → Parse Draft
  | 0, draft => pure draft
  | fuel + 1, draft => do
    let cursor ← look
    if cursor.isDone || cursor.peek (Token.isMark .rightBrace) then pure draft
    else do
      let line? ← attempt line
      match line? with
      | some line => bodyWithin fuel (addLine draft line)
      | none => do
        recover
        bodyWithin fuel draft

def faultCause : ControlFlowFault → Diagnostic.Cause
  | .unknownLabel method label => .unknownLabel method label
  | .duplicateLabel method label => .duplicateLabel method label
  | .danglingLabel method label => .danglingLabel method label

def faultLabel : ControlFlowFault → String
  | .unknownLabel _ label | .duplicateLabel _ label | .danglingLabel _ label => label

/-- Builds the method, or points out what is wrong with its labels, at the label or else at `header`. -/
def build (draft : Draft) (header : Span) : Parse Method := do
  let cursor ← look
  match draft.build with
  | .ok method => pure method
  | .error fault =>
    failAt ((cursor.labels.get? (faultLabel fault)).getD header) (faultCause fault)

/-- A method behind the dot and the word that introduce it; `start` is the span of the dot. -/
def method (isConstructor : Bool) (start : Span) : Parse Method := do
  let (draft, nameSpan) ← orSkipBlock (methodHeader isConstructor)
  modify fun cursor => { cursor with labels := ∅ }
  let draft ← withinRest fun fuel => bodyWithin fuel draft
  -- A body that is not closed is complained about, and built all the same.
  let _ ← attempt (mark .rightBrace "`\x7d` to close the method body")
  build draft (start.cover nameSpan)

end ThreeAddress.Written
