import ThreeAddress.Table
import ThreeAddress.Token.Lexeme

/-!
# Reading tokens

A `Cursor` is a place in a list of tokens together with what was noticed on the way there. A `Parse`
moves a cursor on and yields a value or fails; a parse that fails has reported why, and its cursor
stays where the failure was noticed, so that reading can go on behind it.
-/

namespace ThreeAddress.Written

structure Cursor where
  /-- The place just after the last token of all. -/
  finish : Span
  rest : List Placed
  /-- The labels of the method being read: where each is defined, or else where it was first used. -/
  labels : Table Span
  reports : List Diagnostic

namespace Cursor

def ofTokens (file : Nat) (tokens : List Placed) : Cursor where
  finish := match tokens.getLast? with
    | some (_, span) => { file := span.file, start := span.stop, stop := span.stop }
    | none => { file, start := 0, stop := 0 }
  rest := tokens
  labels := ∅
  reports := []

def isDone (cursor : Cursor) : Bool := cursor.rest.isEmpty

/-- Whether the current token passes a test. -/
def peek (cursor : Cursor) (test : Token → Bool) : Bool :=
  match cursor.rest with
  | (token, _) :: _ => test token
  | [] => false

/-- Whether the token after the current one passes a test. -/
def peekNext (cursor : Cursor) (test : Token → Bool) : Bool :=
  match cursor.rest with
  | _ :: (token, _) :: _ => test token
  | _ => false

/-- The span of the current token, or the end of the text. -/
def span (cursor : Cursor) : Span :=
  match cursor.rest with
  | (_, span) :: _ => span
  | [] => cursor.finish

/-- What stands at the cursor, as diagnostics name it. -/
def found (cursor : Cursor) : String :=
  match cursor.rest with
  | (token, _) :: _ => token.text
  | [] => "end of input"

def advance (cursor : Cursor) : Cursor :=
  { cursor with rest := cursor.rest.tail }

def report (cursor : Cursor) (span : Span) (cause : Diagnostic.Cause) : Cursor :=
  { cursor with reports := cursor.reports ++ [.pointing span cause] }

/-- Behind the next `;`, or before the next closing brace if that comes first, so that a mistake does
not swallow the rest of a method. -/
def pastStatement : List Placed → List Placed
  | [] => []
  | (token, span) :: rest =>
    if token.isMark .semicolon then rest
    else if token.isMark .rightBrace then (token, span) :: rest
    else pastStatement rest

/-- Behind the brace that closes the outermost of the `depth + 1` blocks that are open. -/
def pastBraces : Nat → List Placed → List Placed
  | _, [] => []
  | depth, (token, _) :: rest =>
    if token.isMark .leftBrace then pastBraces (depth + 1) rest
    else if token.isMark .rightBrace then
      match depth with
      | 0 => rest
      | depth + 1 => pastBraces depth rest
    else pastBraces depth rest

/-- Behind the next block in braces, or before the next closing brace if that comes first. -/
def pastBlock : List Placed → List Placed
  | [] => []
  | (token, span) :: rest =>
    if token.isMark .leftBrace then pastBraces 0 rest
    else if token.isMark .rightBrace then (token, span) :: rest
    else pastBlock rest

end Cursor

def Parse (α : Type) : Type := Cursor → Option α × Cursor

namespace Parse

variable {α β : Type}

instance : Monad Parse where
  pure a := fun cursor => (some a, cursor)
  bind p f := fun cursor =>
    match p cursor with
    | (some a, cursor') => f a cursor'
    | (none, cursor') => (none, cursor')

@[simp] theorem pure_apply (a : α) (cursor : Cursor) : (pure a : Parse α) cursor = (some a, cursor) :=
  rfl

theorem bind_apply (p : Parse α) (f : α → Parse β) (cursor : Cursor) :
    (p >>= f) cursor = match p cursor with
      | (some a, cursor') => f a cursor'
      | (none, cursor') => (none, cursor') :=
  rfl

def look : Parse Cursor := fun cursor => (some cursor, cursor)

def modify (f : Cursor → Cursor) : Parse Unit := fun cursor => (some (), f cursor)

def advance : Parse Unit := modify Cursor.advance

def report (span : Span) (cause : Diagnostic.Cause) : Parse Unit :=
  modify fun cursor => cursor.report span cause

/-- Reports a cause and fails. -/
def failAt (span : Span) (cause : Diagnostic.Cause) : Parse α := fun cursor =>
  (none, cursor.report span cause)

/-- Reports that something else was expected at the cursor, and fails. -/
def unexpected (expected : String) : Parse α := fun cursor =>
  (none, cursor.report cursor.span (.unexpected expected cursor.found))

/-- Moves past the current token if it passes a test, and says whether it did. -/
def accept (test : Token → Bool) : Parse Bool := fun cursor =>
  if cursor.peek test then (some true, cursor.advance) else (some false, cursor)

/-- Moves past a token that passes a test, and yields its span. -/
def expect (test : Token → Bool) (expected : String) : Parse Span := fun cursor =>
  if cursor.peek test then (some cursor.span, cursor.advance)
  else unexpected expected cursor

def mark (m : Mark) (expected : String) : Parse Span := expect (Token.isMark m) expected

def keyword (word : String) : Parse Span := expect (Token.isKeyword word) ("`" ++ word ++ "`")

def name (expected : String) : Parse (String × Span) := fun cursor =>
  match cursor.rest with
  | (.name n, span) :: _ => (some (n, span), cursor.advance)
  | _ => unexpected expected cursor

def number (expected : String) : Parse (Nat × Span) := fun cursor =>
  match cursor.rest with
  | (.number value, span) :: _ => (some (value, span), cursor.advance)
  | _ => unexpected expected cursor

def str (expected : String) : Parse String := fun cursor =>
  match cursor.rest with
  | (.str contents, _) :: _ => (some contents, cursor.advance)
  | _ => unexpected expected cursor

/-- Runs a parse and yields its outcome, so that a failure can be handled. -/
def attempt (p : Parse α) : Parse (Option α) := fun cursor =>
  ((some (p cursor).1), (p cursor).2)

/-- Runs a parse that may recur as often as there are tokens left. -/
def withinRest (p : Nat → Parse α) : Parse α := fun cursor => p cursor.rest.length cursor

def recover : Parse Unit :=
  modify fun cursor => { cursor with rest := Cursor.pastStatement cursor.rest }

/-- Runs a parse, and skips the block that it was meant to lead to if it fails. -/
def orSkipBlock (p : Parse α) : Parse α := fun cursor =>
  match p cursor with
  | (some a, cursor') => (some a, cursor')
  | (none, cursor') => (none, { cursor' with rest := Cursor.pastBlock cursor'.rest })

end Parse

end ThreeAddress.Written
