import ThreeAddress.Command.Run

/-!
# The command line

Reads the arguments, runs the command on the files of the disk, and prints what it has to tell: dumps on
the standard output, all else on the standard error.
-/

namespace ThreeAddress.Main

def faultOf : IO.Error → FileFault
  | .noFileOrDirectory .. => .notFound
  | .resourceExhausted _ 28 _ => .noSpace
  | .inappropriateType _ code details | .invalidArgument _ code details
  | .permissionDenied _ code details | .resourceExhausted _ code details =>
    .other (details ++ " (os error " ++ toString code ++ ")")
  | error => .other (toString error)

/-- Runs an action on a file, unless its name cannot be passed on to the system. -/
def guarded {α : Type} (path : String) (action : IO α) : IO (Except FileFault α) := do
  if path.toList.contains '\x00' then return .error .nulInName
  try
    return .ok (← action)
  catch error => return .error (faultOf error)

def disk : Files IO where
  read path := guarded path (IO.FS.readBinFile path)
  write path text := guarded path (IO.FS.writeFile path text)

def usage : String := String.join [
  "compile OLLIR classes to Jasmin assembly.\n\n",
  "Usage: jc <COMMAND>\n\n",
  "Commands:\n",
  "  build  Compile the class and write its Jasmin listing [aliases: b]\n",
  "  check  Compile the class without writing anything [aliases: c]\n",
  "  help   Print this message or the help of the given subcommand(s)\n"]

def faultText : ArgumentFault → String
  | .displayHelp | .nothingGiven => usage
  | .displayVersion => "jc 0.0.1\n"
  | .missingPath => "error: a path is required\n"
  | .unknownCommand => "error: unrecognized subcommand\n"
  | .unknownArgument => "error: unexpected argument\n"
  | .badBudget | .badValue => "error: invalid value\n"
  | .repeated => "error: the argument cannot be used multiple times\n"
  | .unwantedValue => "error: unexpected value\n"

def diagnosticText (diagnostic : Diagnostic) : String :=
  let cause := diagnostic.cause
  let kind := match cause.severity with
    | .error => "error"
    | .warning => "warning"
  let place := match diagnostic.span? with
    | some span => " (" ++ toString span.start ++ ".." ++ toString span.stop ++ ")"
    | none => ""
  kind ++ "[" ++ cause.code ++ "]: " ++ cause.message ++ place ++ "\n"
    ++ String.join (cause.notes.map fun note => "  = " ++ note ++ "\n")

def tell (report : Command.Report) : IO UInt32 := do
  IO.print report.output
  for diagnostic in report.diagnostics do
    IO.eprint (diagnosticText diagnostic)
  match report.ending with
  | .error abort =>
    IO.eprintln ("Error: " ++ abort.message)
    return 1
  | .ok status =>
    IO.eprintln status.line
    match report.succeeded? with
    | .ok true => return 0
    | _ => return 1

end ThreeAddress.Main

def main (args : List String) : IO UInt32 := do
  match ThreeAddress.Arguments.parse args with
  | .ok arguments => ThreeAddress.Main.tell (← ThreeAddress.Command.run ThreeAddress.Main.disk arguments)
  | .error fault =>
    if fault = .displayHelp || fault = .displayVersion then
      IO.print (ThreeAddress.Main.faultText fault)
      return 0
    else
      IO.eprint (ThreeAddress.Main.faultText fault)
      return 2
