import ThreeAddress.Element
import ThreeAddress.Written.Cursor

/-!
# Reading types and elements

    type    = "i32" / "bool" / "V" / "String" / "array" "." type / name
    typed   = "." type
    element = ["-"] number typed
            / ("true" / "false") typed
            / "this" [typed]
            / [param "."] name ["[" element "]"] typed
            / name

The last form of an element is a class. Both grammars nest, and each level takes a token, so the
number of tokens left bounds the recursion; with none left, reading fails as it does at the end of
the text.
-/

namespace ThreeAddress.Written

open Parse

def tyWithin : Nat → Parse Ty
  | 0 => unexpected "a type"
  | fuel + 1 => do
    let (word, _) ← name "a type"
    if word = "array" then do
      let _ ← mark .dot "`.` after `array`"
      let item ← tyWithin fuel
      pure (.array item)
    else pure (Ty.ofWord word)

def ty : Parse Ty := withinRest tyWithin

def typed : Parse Ty := do
  let _ ← mark .dot "`.` before a type"
  ty

/-- An integer typed as a boolean stands for whether it is not zero. -/
def literalOf (value : Int) (ty : Ty) : Literal :=
  if ty = .boolean then .bool (value != 0) else .int (Int32.ofInt value)

def fitsInt32 (value : Int) : Bool := -2147483648 ≤ value && value ≤ 2147483647

/-- A number with its type. `start` is where the literal begins, its sign included. -/
def literal (negative : Bool) (start : Span) : Parse Element := do
  let (magnitude, span) ← number "a number"
  let ty ← typed
  let value : Int := if negative then -(magnitude : Int) else magnitude
  if fitsInt32 value then pure (.literal (literalOf value ty) ty)
  else
    let sign := if negative then "-" else ""
    failAt (start.cover span) (.literalRange (sign ++ toString magnitude))

def receiver : Parse Element := do
  let cursor ← look
  if cursor.peek (Token.isMark .dot) then do
    let _ ← typed
    pure .receiver
  else pure .receiver

/-- Moves past the index that may stand before the name of a parameter. -/
def paramIndex : Parse Unit := do
  let given ← accept Token.isParam
  if given then do
    let _ ← mark .dot "`.` after a parameter index"
    pure ()
  else pure ()

/-- What comes behind the name of a variable or class; `index` reads the index of a slot. -/
def afterName (index : Parse Element) (name : String) : Parse Element := do
  let slot ← accept (Token.isMark .leftBracket)
  if slot then do
    let index ← index
    let _ ← mark .rightBracket "`]`"
    let ty ← typed
    pure (.slot name index ty)
  else do
    let cursor ← look
    if cursor.peek (Token.isMark .dot) then do
      let ty ← typed
      pure (.operand name ty)
    -- A name without a type is that of a class.
    else pure (.ofClass name)

def elementWithin : Nat → Parse Element
  | 0 => unexpected "an operand"
  | fuel + 1 => do
    let cursor ← look
    if cursor.peek (Token.isMark .minus) && cursor.peekNext Token.isNumber then do
      advance
      literal true cursor.span
    else if cursor.peek Token.isNumber then literal false cursor.span
    else if (cursor.peek (Token.isKeyword "true") || cursor.peek (Token.isKeyword "false"))
        && cursor.peekNext (Token.isMark .dot) then do
      advance
      let ty ← typed
      pure (.literal (.bool (cursor.peek (Token.isKeyword "true"))) ty)
    else if cursor.peek (Token.isKeyword "this") then do
      advance
      receiver
    else do
      -- The index of a parameter says nothing that its name does not.
      paramIndex
      let (name, _) ← name "an operand"
      afterName (elementWithin fuel) name

def element : Parse Element := withinRest elementWithin

end ThreeAddress.Written
