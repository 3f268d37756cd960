import ThreeAddress.Command.Arguments
import ThreeAddress.Command.FileTree
import ThreeAddress.Lowering
import ThreeAddress.Picture
import ThreeAddress.Written.Program

/-!
# Running a command

`Command.run` compiles the file that the arguments name. It is written over any monad that can read and
write files, so that the same steps run on a `FileTree` and on a disk.
-/

namespace ThreeAddress

/-- How files are read and written. -/
structure Files (m : Type → Type) where
  read : String → m (Except FileFault ByteArray)
  write : String → String → m (Except FileFault Unit)

namespace Command

/-- What kept a command from running to its end. -/
inductive Abort where
  | unreadable (path : String)
  | notText (path : String)
  | unwritable (path : String)
  | pictureFailed (fault : FileFault)
  deriving DecidableEq, Repr

def Abort.message : Abort → String
  | .unreadable path => s!"could not read `{path}`"
  | .notText path => s!"`{path}` is not valid UTF-8"
  | .unwritable path => s!"could not write `{path}`"
  | .pictureFailed fault => fault.message

/-- How far a command got. -/
inductive Status where
  | failed (what : String)
  | wrote (path : String)
  | checked (unit : String)
  deriving DecidableEq, Repr

def alignRight (columns : Nat) (text : String) : String :=
  String.ofList (List.replicate (columns - text.length) ' ') ++ text

def Status.line : Status → String
  | .failed what => alignRight 10 "failed" ++ " " ++ what
  | .wrote path => alignRight 10 "wrote" ++ " " ++ path
  | .checked unit => alignRight 10 "checked" ++ " " ++ unit

/-- What a command has to tell. -/
structure Report where
  diagnostics : List Diagnostic := []
  dumps : List (Stage × String) := []
  ending : Except Abort Status

def Report.hasErrors (report : Report) : Bool := report.diagnostics.any Diagnostic.isError

/-- Whether all went well, if the command ran to its end. -/
def Report.succeeded? (report : Report) : Except Abort Bool :=
  match report.ending with
  | .ok (.failed _) => .ok false
  | .ok _ => .ok (!report.hasErrors)
  | .error abort => .error abort

def dumpText (dump : Stage × String) : String :=
  "== " ++ dump.1.name ++ " ==\n" ++ dump.2 ++ "\n"

/-- What goes to the standard output. -/
def Report.output (report : Report) : String := String.join (report.dumps.map dumpText)

/-- The size of the buffer for a picture, in bytes. -/
def pictureBuffer : Nat := 8192

section

variable {m : Type → Type} [Monad m]

/-- Writes a picture, if one is wanted. That a device has no space is noticed only if the picture is
larger than the buffer that it goes through. -/
def writePicture (files : Files m) (options : Options) (unit : ClassUnit) :
    m (Except FileFault Unit) :=
  match options.picture? with
  | none => pure (.ok ())
  | some path => do
    let text := (Picture.ofClass unit).text
    let written ← files.write path text
    if written matches .error .noSpace && text.utf8ByteSize ≤ pictureBuffer then pure (.ok ())
    else pure written

/-- The end of a command for which there is a listing. -/
def finish (files : Files m) (arguments : Arguments) (unit : ClassUnit) (listing : String) :
    m (Except Abort Status) :=
  if arguments.build then do
    let path := arguments.options.listingPath unit.name
    let written ← files.write path listing
    match written with
    | .ok () => pure (.ok (.wrote path))
    | .error _ => pure (.error (.unwritable path))
  else pure (.ok (.checked unit.name))

/-- Compiles a class that was read with the given complaints. -/
def compile (files : Files m) (arguments : Arguments) (unit : ClassUnit)
    (complaints : List Diagnostic) : m Report := do
  let allocation := unit.allocate arguments.options.registers arguments.options.dumps
  let dumps := allocation.dumps
  let diagnostics := complaints ++ allocation.warnings
  let pictured ← writePicture files arguments.options allocation.unit
  match pictured with
  | .error fault => pure { diagnostics, dumps, ending := .error (.pictureFailed fault) }
  | .ok () =>
    match allocation.unit.generate with
    | (none, faults) =>
      pure { diagnostics := diagnostics ++ faults, dumps, ending := .ok (.failed unit.name) }
    | (some listing, faults) => do
      let ending ← finish files arguments allocation.unit listing
      pure { diagnostics := diagnostics ++ faults, dumps, ending }

def run (files : Files m) (arguments : Arguments) : m Report := do
  let path := arguments.options.path
  let contents ← files.read path
  match contents with
  | .error _ => pure { ending := .error (.unreadable path) }
  | .ok bytes =>
    match String.fromUTF8? bytes with
    | none => pure { ending := .error (.notText path) }
    | some source =>
      match read 0 source with
      | (none, complaints) => pure { diagnostics := complaints, ending := .ok (.failed path) }
      | (some unit, complaints) => compile files arguments unit complaints

end

end Command

/-- Reading and writing in a tree of files. -/
def FileTree.access : Files (StateM FileTree) where
  read path := fun tree => (tree.read path, tree)
  write path text := fun tree =>
    match tree.write path text with
    | .ok tree' => (.ok (), tree')
    | .error fault => (.error fault, tree)

end ThreeAddress
