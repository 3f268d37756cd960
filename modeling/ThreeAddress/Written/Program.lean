import ThreeAddress.Written.Member

/-!
# Reading classes

    program  = *imported class
    imported = "import" name *("." name) ";"
    class    = [access] name ["extends" name] "{" *(field / method) "}"

`read` takes a source text to a class if there is nothing to complain about, and to the complaints
in any case: those about tokens first, then those of the parse.
-/

namespace ThreeAddress.Written

open Parse

def importPathWithin : Nat → String → Parse String
  | 0, path => pure path
  | fuel + 1, path => do
    let more ← accept (Token.isMark .dot)
    if more then do
      let (part, _) ← name "an import path"
      importPathWithin fuel (path ++ "." ++ part)
    else pure path

def importPath : Parse String := do
  let (start, _) ← name "an import path"
  let path ← withinRest fun fuel => importPathWithin fuel start
  let _ ← mark .semicolon "`;` after an import"
  pure path

def importsWithin : Nat → List String → Parse (List String)
  | 0, imports => pure imports
  | fuel + 1, imports => do
    let another ← accept (Token.isKeyword "import")
    if another then do
      let path? ← attempt importPath
      match path? with
      | some path => importsWithin fuel (imports ++ [path])
      | none => do
        recover
        importsWithin fuel imports
    else pure imports

structure Members where
  fields : List Field := []
  methods : List Method := []

def addField (members : Members) : Parse Members := do
  let field? ← attempt field
  match field? with
  | some field => pure { members with fields := members.fields ++ [field] }
  | none => do
    recover
    pure members

def addMethod (members : Members) (isConstructor : Bool) (start : Span) : Parse Members := do
  let method? ← attempt (method isConstructor start)
  match method? with
  | some method => pure { members with methods := members.methods ++ [method] }
  | none => pure members

/-- One member, added to those before it if it can be read. -/
def member (members : Members) : Parse Members := do
  let start? ← attempt (mark .dot "a `.field`, `.method` or `.construct`")
  match start? with
  | none => do
    recover
    pure members
  | some start => do
    let isField ← accept (Token.isKeyword "field")
    if isField then addField members
    else do
      let isMethod ← accept (Token.isKeyword "method")
      if isMethod then addMethod members false start
      else do
        let isConstructor ← accept (Token.isKeyword "construct")
        if isConstructor then addMethod members true start
        else do
          let _ ← attempt (unexpected "`field`, `method` or `construct`" : Parse Unit)
          recover
          pure members

def membersWithin : Nat → Members → Parse Members
  | 0, members => pure members
  | fuel + 1, members => do
    let cursor ← look
    if cursor.isDone || cursor.peek (Token.isMark .rightBrace) then pure members
    else do
      let members ← member members
      membersWithin fuel members

def superclass : Parse (Option String) := do
  let given ← accept (Token.isKeyword "extends")
  if given then do
    let (name, _) ← name "a superclass name"
    pure (some name)
  else pure none

def classUnit (imports : List String) : Parse ClassUnit := do
  let access? ← access
  let (name, _) ← name "a class name"
  let super? ← superclass
  let _ ← mark .leftBrace "`\x7b` to open the class body"
  let members ← withinRest fun fuel => membersWithin fuel {}
  let _ ← mark .rightBrace "`\x7d` to close the class body"
  pure { name, super?, access := access?.getD .pub, isFinal := false, imports,
         fields := members.fields, methods := members.methods }

/-- Complains about tokens behind the class. -/
def endOfInput : Parse Unit := do
  let cursor ← look
  if cursor.isDone then pure ()
  else report cursor.span (.unexpected "end of input" cursor.found)

def program : Parse ClassUnit := do
  let imports ← withinRest fun fuel => importsWithin fuel []
  let unit ← classUnit imports
  endOfInput
  pure unit

end ThreeAddress.Written

namespace ThreeAddress

/-- The class that tokens spell out, as far as it could be made out, with all complaints. -/
def parse (file : Nat) (tokens : List Placed) : Option ClassUnit × List Diagnostic :=
  let outcome := Written.program (Written.Cursor.ofTokens file tokens)
  (outcome.1, outcome.2.reports)

def read (file : Nat) (source : String) : Option ClassUnit × List Diagnostic :=
  let (tokens, stray) := lex file source
  let (unit?, reports) := parse file tokens
  if tokens.any (fun placed => placed.1.isInvalid) || reports.any Diagnostic.isError then
    (none, stray ++ reports)
  else
    (unit?, stray ++ reports)

end ThreeAddress
