import ThreeAddress.Command.Path
import ThreeAddress.Table

/-!
# Files

A `FileTree` holds the files below a working directory by their paths. A directory is there if a file
is in it. Paths are followed part by part. They may also lead out of the working directory, where
nothing is known but a few directories and devices of the system: files can be created there, but the
tree does not keep them.
-/

namespace ThreeAddress

inductive FileFault where
  | notFound
  | notADirectory
  | isADirectory
  | noSpace
  | nameTooLong
  | nulInName
  | other (message : String)
  deriving DecidableEq, Repr

def FileFault.message : FileFault → String
  | .notFound => "No such file or directory (os error 2)"
  | .notADirectory => "Not a directory (os error 20)"
  | .isADirectory => "Is a directory (os error 21)"
  | .noSpace => "No space left on device (os error 28)"
  | .nameTooLong => "File name too long (os error 36)"
  | .nulInName => "file name contained an unexpected NUL byte"
  | .other message => message

/-- A directory that a path can lead to. -/
inductive Directory where
  /-- The working directory or one below it. -/
  | within (parts : List String)
  /-- The directory that is `levels + 1` levels above the working directory. -/
  | above (levels : Nat)
  /-- A directory of the system, by its parts from the root. -/
  | system (parts : List String)
  deriving DecidableEq, Repr

/-- The root is its own parent. -/
def Directory.parent : Directory → Directory
  | .within [] => .above 0
  | .within (part :: parts) => .within (part :: parts).dropLast
  | .above levels => .above (levels + 1)
  | .system parts => .system parts.dropLast

inductive Device where
  /-- Takes everything. -/
  | null
  /-- Takes nothing. -/
  | full
  deriving DecidableEq, Repr

/-- What a path can lead to. -/
inductive Entry where
  | directory (directory : Directory)
  | device (device : Device)
  /-- A file that is there. -/
  | file (path : String)
  /-- Nothing, but a file can be created; `path?` is where the tree would keep it. -/
  | absent (path? : Option String)
  deriving DecidableEq, Repr

structure FileTree where
  files : Table ByteArray

namespace FileTree

/-- The most bytes that one part of a path may have. -/
def nameLimit : Nat := 255

/-- The most bytes that a whole path may have. -/
def pathLimit : Nat := 4095

def pathOf (parts : List String) : String := "/".intercalate parts

/-- The tree with a file at a path, of which idle parts do not count. -/
def add (tree : FileTree) (path : String) (contents : ByteArray) : FileTree :=
  ⟨tree.files.set (pathOf ((Path.parts path).filter (!Path.isIdle ·))) contents⟩

/-- Whether the parts name a directory; the working directory is always there. -/
def isDirectory (tree : FileTree) (parts : List String) : Bool :=
  parts.isEmpty || tree.files.keys.any fun path => path.startsWith (pathOf parts ++ "/")

/-- The directories that every system has. -/
def systemDirectories : List String := ["bin", "dev", "etc", "home", "tmp", "usr", "var"]

def systemEntry : (parts : List String) → String → Entry
  | [], name =>
    if systemDirectories.contains name then .directory (.system [name]) else .absent none
  | ["dev"], name =>
    if name = "null" then .device .null
    else if name = "full" then .device .full
    else .absent none
  | _, _ => .absent none

/-- What goes by a name in a directory. -/
def entry (tree : FileTree) (dir : Directory) (name : String) : Except FileFault Entry :=
  if nameLimit < name.utf8ByteSize then .error .nameTooLong
  else
    match dir with
    | .within parts =>
      let path := pathOf (parts ++ [name])
      if tree.isDirectory (parts ++ [name]) then .ok (.directory (.within (parts ++ [name])))
      else if tree.files.contains path then .ok (.file path)
      else .ok (.absent (some path))
    | .above _ => .ok (.absent none)
    | .system parts => .ok (systemEntry parts name)

/-- The directory that parts lead to, starting from the directory `dir`. -/
def walk (tree : FileTree) : (dir : Directory) → List String → Except FileFault Directory
  | dir, [] => .ok dir
  | dir, part :: rest =>
    if Path.isIdle part then tree.walk dir rest
    else if part = ".." then tree.walk dir.parent rest
    else
      match tree.entry dir part with
      | .ok (.directory next) => tree.walk next rest
      | .ok (.absent _) => .error .notFound
      | .ok _ => .error .notADirectory
      | .error fault => .error fault

/-- Where a path starts from. -/
def origin (path : String) : Directory := if path.startsWith "/" then .system [] else .within []

/-- What a path leads to. One that ends in a slash or in dots leads to a directory. -/
def locate (tree : FileTree) (path : String) : Except FileFault Entry :=
  if path.toList.contains '\x00' then .error .nulInName
  else if path = "" then .error .notFound
  else if pathLimit < path.utf8ByteSize then .error .nameTooLong
  else
    match (Path.parts path).reverse.dropWhile (· = "") with
    | [] => .ok (.directory (origin path))
    | name :: above => do
      let dir ← tree.walk (origin path) above.reverse
      if name = ".." then .ok (.directory dir.parent)
      else if name = "." || path.endsWith "/" then .ok (.directory dir)
      else tree.entry dir name

def read (tree : FileTree) (path : String) : Except FileFault ByteArray := do
  let entry ← tree.locate path
  match entry with
  | .directory _ => .error .isADirectory
  | .device _ => .ok .empty
  | .absent _ => .error .notFound
  | .file place =>
    match tree.files.get? place with
    | some contents => .ok contents
    | none => .error .notFound

def write (tree : FileTree) (path text : String) : Except FileFault FileTree := do
  let entry ← tree.locate path
  match entry with
  | .directory _ => .error .isADirectory
  | .device .full => .error .noSpace
  | .device .null | .absent none => .ok tree
  | .file place | .absent (some place) => .ok ⟨tree.files.set place text.toUTF8⟩

end FileTree

end ThreeAddress
