import ApiReference.Command.Actions

/-!
# The command line

The first argument names the command, the second is its input, and the others are options.  Results
are printed; everything else, down to the usage of a single command, is noted on the side.  The
program ends with 0 if all went well and with 1 otherwise.
-/

namespace ApiReference

set_option autoImplicit false

variable {m : Type → Type} [Monad m] [Workspace m]

namespace CommandLine

/-- The name of the program. -/
def programName : String := "zdoc"

/-- The version of the program. -/
def version : String := "0.1.0"

/-- The variable of the environment that names the default table of aliases. -/
def tableVariable : String := "ZDOC_TYPEDEFS"

/-- How the program is used. -/
def usage : List String :=
  [s!"{programName} - documentation builder",
    "",
    s!"Usage: {programName} <command> [options]",
    "",
    "Commands:",
    "  build <docset.json>     Build the trimmed documentation library",
    "  typedefs <docset.json>  Print the expanded typedef table",
    "  canon <type>            Show the display form of a type",
    "  help                    Show this message",
    "",
    "Environment:",
    s!"  {tableVariable}           Default typedef table",
    "  RUST_LOG                Log filter, e.g. zdoc_typedefs=debug",
    "  ZDOC_TRACE_TREE         Show logs as a span tree"]

/-- How the build command is used. -/
def buildUsage : List String :=
  [s!"Usage: {programName} build <docset.json> [options]",
    "",
    "Options:",
    "  -o <path>                Output file (default: stdout)",
    s!"  --typedefs=<path>        Extra typedef table (default: ${tableVariable})",
    "  --emit-typedefs=<path>   Write the expanded typedef table",
    "  --ignore=<path>          Names left out of the report",
    "  --no-report              Skip the missing-description report"]

/-- How the command that prints the aliases is used. -/
def typedefsUsage : List String :=
  [s!"Usage: {programName} typedefs <docset.json> [--typedefs=<path>]"]

/-- How the command that shows a type is used. -/
def canonUsage : List String :=
  [s!"Usage: {programName} canon <type> [--typedefs=<path>] [--namespace=<A::B>]"]

/-- How a run of the program ends. -/
abbrev ExitCode := UInt32

/-- All went well. -/
def success : ExitCode := 0

/-- Something went wrong. -/
def failure : ExitCode := 1

/-- Print lines. -/
def printLines (lines : List String) : m Unit :=
  lines.forM Workspace.print

/-- Note lines on the side. -/
def noteLines (lines : List String) : m Unit :=
  lines.forM Workspace.note

/-- The value of the first argument that gives an option. -/
def optionValue? (beginning : String) (arguments : List String) : Option String :=
  arguments.findSome? (textBehind? beginning)

/-- The path of the table of aliases: the one given, or else that of the environment. -/
def tablePath? (environmentTable? : Option String) (arguments : List String) : Option String :=
  optionValue? "--typedefs=" arguments <|> environmentTable?

/-- Build the documentation as the arguments ask for. -/
def runBuild (environmentTable? : Option String) (input : String) (arguments : List String) :
    CommandM m Unit := do
  liftM (noteLines (m := m) ((BuildOptions.unknownArguments arguments).map BuildOptions.warning))
  let options := BuildOptions.readArguments .none arguments
  let (summary, text?) ←
    buildDocumentation input (options.withDefaultTable environmentTable?)
  liftM (printLines (m := m) text?.toList)
  liftM (noteLines (m := m) [summary.line])

/-- Run the command that the arguments name.  `environmentTable?` is the default table of aliases
that the environment names. -/
def dispatch (environmentTable? : Option String) (arguments : List String) :
    CommandM m ExitCode := do
  match arguments with
  | [] => liftM (printLines (m := m) usage); return success
  | ["build"] => liftM (noteLines (m := m) buildUsage); return failure
  | "build" :: input :: options =>
    runBuild environmentTable? input options
    return success
  | ["typedefs"] => liftM (noteLines (m := m) typedefsUsage); return failure
  | "typedefs" :: input :: options =>
    let text ← expandedTableText input (tablePath? environmentTable? options)
    liftM (printLines (m := m) [text])
    return success
  | ["canon"] => liftM (noteLines (m := m) canonUsage); return failure
  | "canon" :: type :: options =>
    let shown ← shownType type (tablePath? environmentTable? options)
      (optionValue? "--namespace=" options)
    liftM (printLines (m := m) [shown])
    return success
  | command :: _ =>
    if ["help", "--help", "-h"].contains command then
      liftM (printLines (m := m) usage)
      return success
    else if ["--version", "-V"].contains command then
      liftM (printLines (m := m) [s!"{programName} {version}"])
      return success
    else
      liftM (noteLines (m := m) [s!"Unknown command: {command}", ""])
      liftM (printLines (m := m) usage)
      return failure

/-- Run the command that the arguments name, and tell of a failure in one line. -/
def run (environmentTable? : Option String) (arguments : List String) : m ExitCode := do
  match ← (dispatch environmentTable? arguments : CommandM m ExitCode).run with
  | .ok code => return code
  | .error reason =>
    Workspace.note (reason.line reason.message)
    return failure

end CommandLine

end ApiReference
