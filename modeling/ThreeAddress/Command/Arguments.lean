import ThreeAddress.Budget
import ThreeAddress.Command.Path
import ThreeAddress.Dump

/-!
# Command line arguments

    build|b [options] PATH    compile a class and write its listing
    check|c [options] PATH    compile a class and write nothing
    help [command]

    -r, --registers BUDGET    -o, --output PATH    --dump liveness|interference
    --interference-dot PATH   -h, --help           -V, --version

Arguments are taken from left to right. The value of an option is looked at one step late, when the
next option or path comes or when there is nothing left, so an argument that is not understood is told
before a bad value in front of it. A value that is attached, as in `-r3` or `--registers=3`, is looked
at once.
-/

namespace ThreeAddress

structure Options where
  registers : Budget
  output? : Option String
  dumps : List Stage
  picture? : Option String
  path : String
  deriving DecidableEq, Repr

structure Arguments where
  /-- Whether the listing is to be written. -/
  build : Bool
  options : Options
  deriving DecidableEq, Repr

/-- The file that the listing of a class goes to: next to the source, unless another is given. -/
def Options.listingPath (options : Options) (unit : String) : String :=
  options.output?.getD (Path.withName options.path (unit ++ ".j"))

/-- Why arguments do not make a command. -/
inductive ArgumentFault where
  | displayHelp
  | displayVersion
  /-- There is nothing to do. -/
  | nothingGiven
  | missingPath
  | unknownCommand
  | unknownArgument
  /-- A value that no budget is written like. -/
  | badBudget
  /-- A value that is missing, empty, or none of those possible. -/
  | badValue
  | repeated
  /-- A value for an option that takes none. -/
  | unwantedValue
  deriving DecidableEq, Repr

namespace Arguments

/-- What an argument can give a value to. -/
inductive Slot where
  | registers
  | output
  | dump
  | picture
  | path
  deriving DecidableEq, Repr

/-- The values that were taken so far. -/
structure Taken where
  registers? : Option Budget := none
  output? : Option String := none
  dumps : List Stage := []
  picture? : Option String := none
  path? : Option String := none
  deriving DecidableEq, Repr

def stageOf? (text : String) : Option Stage :=
  if text = "liveness" then some .liveness
  else if text = "interference" then some .interference
  else none

/-- A path must not be empty, and must not be given twice. -/
def takePath (old? : Option String) (text : String) : Except ArgumentFault String :=
  if old?.isSome then .error .repeated
  else if text = "" then .error .badValue
  else .ok text

namespace Taken

def takeRegisters (taken : Taken) (text : String) : Except ArgumentFault Taken :=
  if taken.registers?.isSome then .error .repeated
  else
    match Budget.ofText? text with
    | some budget => .ok { taken with registers? := some budget }
    | none => .error .badBudget

def takeDump (taken : Taken) (text : String) : Except ArgumentFault Taken :=
  match stageOf? text with
  | some stage => .ok { taken with dumps := taken.dumps ++ [stage] }
  | none => .error .badValue

def take (taken : Taken) (slot : Slot) (text : String) : Except ArgumentFault Taken :=
  match slot with
  | .registers => taken.takeRegisters text
  | .dump => taken.takeDump text
  | .output => do
    let path ← takePath taken.output? text
    .ok { taken with output? := some path }
  | .picture => do
    let path ← takePath taken.picture? text
    .ok { taken with picture? := some path }
  | .path => do
    let path ← takePath taken.path? text
    .ok { taken with path? := some path }

def options (taken : Taken) : Except ArgumentFault Options :=
  match taken.path? with
  | none => .error .missingPath
  | some path =>
    .ok { registers := taken.registers?.getD .disabled, output? := taken.output?,
          dumps := taken.dumps, picture? := taken.picture?, path }

end Taken

/-- How far the arguments have been taken. -/
structure Progress where
  taken : Taken := {}
  /-- The slot whose value is looked at next, with the value if it has come. -/
  pending? : Option (Slot × Option String) := none
  /-- Whether the path has come. -/
  hasPath : Bool := false
  deriving DecidableEq, Repr

namespace Progress

/-- Looks at the value that is still pending. -/
def settle (progress : Progress) : Except ArgumentFault Progress :=
  match progress.pending? with
  | none => .ok progress
  | some (_, none) => .error .badValue
  | some (slot, some text) => do
    let taken ← progress.taken.take slot text
    .ok { progress with taken, pending? := none }

/-- An option, with the value attached to it if there is one. -/
def option (progress : Progress) (slot : Slot) (attached? : Option String) :
    Except ArgumentFault Progress := do
  let progress ← progress.settle
  match attached? with
  | none => .ok { progress with pending? := some (slot, none) }
  | some text => do
    let taken ← progress.taken.take slot text
    .ok { progress with taken }

/-- A flag that ends all once what is pending has been looked at. -/
def stop (progress : Progress) (fault : ArgumentFault) : Except ArgumentFault Progress := do
  let _ ← progress.settle
  .error fault

/-- An argument that is no option, nor the value of one. -/
def positional (progress : Progress) (text : String) : Except ArgumentFault Progress :=
  if progress.hasPath then .error .unknownArgument
  else do
    let progress ← progress.settle
    .ok { progress with pending? := some (.path, some text), hasPath := true }

def long (progress : Progress) (name : String) (value? : Option String) :
    Except ArgumentFault Progress :=
  if name = "registers" then progress.option .registers value?
  else if name = "output" then progress.option .output value?
  else if name = "dump" then progress.option .dump value?
  else if name = "interference-dot" then progress.option .picture value?
  else if name = "help" then
    if value?.isSome then .error .unwantedValue else progress.stop .displayHelp
  else if name = "version" then
    if value?.isSome then .error .unwantedValue else progress.stop .displayVersion
  else .error .unknownArgument

/-- The value that stands right behind a short option, an equals sign in front of it dropped. -/
def attachedTo : List Char → Option String
  | [] => none
  | '=' :: value => some (String.ofList value)
  | value => some (String.ofList value)

def short (progress : Progress) (flag : Char) (rest : List Char) : Except ArgumentFault Progress :=
  if flag = 'r' then progress.option .registers (attachedTo rest)
  else if flag = 'o' then progress.option .output (attachedTo rest)
  else if flag = 'h' then progress.stop .displayHelp
  else if flag = 'V' then progress.stop .displayVersion
  else .error .unknownArgument

end Progress

/-- An argument by its form. -/
inductive Form where
  /-- Two dashes alone: all that follows is taken as it is. -/
  | escape
  | long (name : String) (value? : Option String)
  | short (flag : Char) (rest : List Char)
  | plain
  deriving DecidableEq, Repr

def splitEquals (text : List Char) : String × Option String :=
  let name := String.ofList (text.takeWhile (· != '='))
  match text.dropWhile (· != '=') with
  | [] => (name, none)
  | _ :: value => (name, some (String.ofList value))

def formOf (argument : String) : Form :=
  match argument.toList with
  | ['-', '-'] => .escape
  | '-' :: '-' :: text => .long (splitEquals text).1 (splitEquals text).2
  | '-' :: flag :: rest => .short flag rest
  | _ => .plain

/-- Whether the characters behind a dash make a number: digits, then perhaps a point or an exponent,
but neither of them first, and the exponent not empty. -/
def isNumber (text : List Char) : Bool :=
  let whole := text.takeWhile Char.isDigit
  let exponent : List Char → Bool
    | [] => true
    | c :: digits => (c == 'e' || c == 'E') && !digits.isEmpty && digits.all Char.isDigit
  !whole.isEmpty &&
    match text.dropWhile Char.isDigit with
    | '.' :: rest => exponent (rest.dropWhile Char.isDigit)
    | rest => exponent rest

/-- Whether the argument is a value for the option before it, although it looks like an option. -/
def isNegativeBudget (pending? : Option (Slot × Option String)) (flag : Char) (rest : List Char) :
    Bool :=
  match pending? with
  | some (.registers, none) => isNumber (flag :: rest)
  | _ => false

/-- An argument that is no option: the value of the option before it, or a path. -/
def plain (progress : Progress) (argument : String) : Except ArgumentFault Progress :=
  match progress.pending? with
  | some (slot, none) => .ok { progress with pending? := some (slot, some argument) }
  | _ => progress.positional argument

def argument (progress : Progress) (argument : String) : Except ArgumentFault Progress :=
  match formOf argument with
  | .long name value? => progress.long name value?
  | .short flag rest =>
    -- Only a budget can be a negative number.
    if isNegativeBudget progress.pending? flag rest then plain progress argument
    else progress.short flag rest
  | _ => plain progress argument

def positionals : Progress → List String → Except ArgumentFault Progress
  | progress, [] => .ok progress
  | progress, text :: rest => do
    let progress ← progress.positional text
    positionals progress rest

def takeAll : Progress → List String → Except ArgumentFault Progress
  | progress, [] => .ok progress
  | progress, text :: rest =>
    if formOf text = .escape then positionals progress rest
    else do
      let progress ← argument progress text
      takeAll progress rest

def optionsOf (arguments : List String) : Except ArgumentFault Options := do
  let progress ← takeAll {} arguments
  let progress ← progress.settle
  progress.taken.options

/-- The commands and the shorter names they go by. -/
def commandOf? (word : String) : Option Bool :=
  if word = "build" || word = "b" then some true
  else if word = "check" || word = "c" then some false
  else none

def isCommand (word : String) : Bool := (commandOf? word).isSome || word = "help"

/-- Help takes the name of a command, and commands have no commands of their own. -/
def help : List String → ArgumentFault
  | [] => .displayHelp
  | [word] => if isCommand word then .displayHelp else .unknownCommand
  | _ => .unknownCommand

/-- A word where no command can come any more. -/
def escaped : List String → ArgumentFault
  | [] => .nothingGiven
  | word :: _ => if isCommand word then .unknownArgument else .unknownCommand

def parse : List String → Except ArgumentFault Arguments
  | [] => .error .nothingGiven
  | word :: rest =>
    match commandOf? word with
    | some build => do
      let options ← optionsOf rest
      .ok { build, options }
    | none =>
      if word = "help" then .error (help rest)
      else
        match formOf word with
        | .escape => .error (escaped rest)
        | .long name value? =>
          if name = "help" || name = "version" then
            if value?.isSome then .error .unwantedValue
            else .error (if name = "help" then .displayHelp else .displayVersion)
          else .error .unknownArgument
        | .short flag _ =>
          .error (if flag = 'h' then .displayHelp
            else if flag = 'V' then .displayVersion
            else .unknownArgument)
        | .plain => .error .unknownCommand

end Arguments

end ThreeAddress
