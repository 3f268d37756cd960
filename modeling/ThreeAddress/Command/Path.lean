/-!
# Paths

Paths as text, with `/` between their parts. Empty parts and parts that are `.` count for nothing, but
for a `.` at the very start.
-/

namespace ThreeAddress.Path

/-- Puts a character in front of parts that were cut already. A slash is kept by none of them and opens
a new part. -/
def putChar (c : Char) : List (List Char) → List (List Char)
  | part :: rest => if c = '/' then [] :: part :: rest else (c :: part) :: rest
  | [] => [[c]]

/-- The parts of a path between its slashes, empty ones included. -/
def parts (path : String) : List String :=
  (path.toList.foldr putChar [[]]).map String.ofList

def isIdle (part : String) : Bool := part = "" || part = "."

/-- The start of a path that is no part of it: the root, or a `.` for where one is. -/
def anchor (path : String) : String :=
  match path.toList with
  | '/' :: _ => "/"
  | ['.'] => "."
  | '.' :: '/' :: _ => "."
  | _ => ""

/-- A path followed by another, which replaces it if it starts at the root. -/
def join (path other : String) : String :=
  if other.startsWith "/" then other
  else if path = "" || path.endsWith "/" then path ++ other
  else path ++ "/" ++ other

/-- The parts behind the anchor from last to first, without idle ones at the end. -/
def partsFromLast (path : String) : List String :=
  (parts (path.drop (anchor path).length).toString).reverse.dropWhile isIdle

/-- The path with its last part replaced. A path that ends in `..`, or has no parts, is followed by the
name instead. -/
def withName (path name : String) : String :=
  match partsFromLast path with
  | [] => join path name
  | last :: others =>
    if last = ".." then join path name
    else join (anchor path ++ "/".intercalate (others.dropWhile isIdle).reverse) name

end ThreeAddress.Path
