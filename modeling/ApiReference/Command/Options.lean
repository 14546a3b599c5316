/-!
# Options of the build command

Every option but one is a single argument.  The exception is `-o`, which takes the argument behind
it as the path of the output; `--output=` says the same in one argument.  Of an option that is given
more than once the last one counts.  Arguments that are no option are passed over, and the caller
may ask for them to warn about them.
-/

namespace ApiReference

set_option autoImplicit false

/-- What the build command is asked to do besides reading a document set. -/
structure BuildOptions where
  /-- Where the library goes; it is printed if there is no path. -/
  output? : Option String
  /-- The table of further aliases. -/
  table? : Option String
  /-- Where the expanded table of aliases goes. -/
  emittedTable? : Option String
  /-- The list of names left out of the report. -/
  ignore? : Option String
  /-- Leave out the report. -/
  noReport : Bool
deriving DecidableEq, Repr, Inhabited

/-- An option that is a single argument. -/
inductive BuildOption where
  | output (path : String)
  | table (path : String)
  | emittedTable (path : String)
  | ignore (path : String)
  | noReport
deriving DecidableEq, Repr

/-- What stands behind a beginning of a text, if it begins so. -/
def textBehind? (beginning text : String) : Option String :=
  if beginning.toList.isPrefixOf text.toList then
    some (String.ofList (text.toList.drop beginning.toList.length))
  else none

/-- Read an argument as an option. -/
def BuildOption.ofArgument? (argument : String) : Option BuildOption :=
  (textBehind? "--typedefs=" argument).map table <|>
  (textBehind? "--emit-typedefs=" argument).map emittedTable <|>
  (textBehind? "--ignore=" argument).map ignore <|>
  (textBehind? "--output=" argument).map output <|>
  if argument = "--no-report" then some noReport else none

namespace BuildOptions

/-- No option is given. -/
def none : BuildOptions := ⟨.none, .none, .none, .none, false⟩

/-- Give one more option. -/
def set (options : BuildOptions) : BuildOption → BuildOptions
  | .output path => { options with output? := some path }
  | .table path => { options with table? := some path }
  | .emittedTable path => { options with emittedTable? := some path }
  | .ignore path => { options with ignore? := some path }
  | .noReport => { options with noReport := true }

/-- The options of some arguments. -/
def parse (arguments : List String) : BuildOptions :=
  (arguments.filterMap BuildOption.ofArgument?).foldl set none

/-- The arguments that are no option. -/
def unknown (arguments : List String) : List String :=
  arguments.filter fun argument => (BuildOption.ofArgument? argument).isNone

/-- Options given in two rounds; what the later round gives counts. -/
def merge (earlier later : BuildOptions) : BuildOptions where
  output? := later.output? <|> earlier.output?
  table? := later.table? <|> earlier.table?
  emittedTable? := later.emittedTable? <|> earlier.emittedTable?
  ignore? := later.ignore? <|> earlier.ignore?
  noReport := earlier.noReport || later.noReport

/-- Take the table of further aliases from the environment, unless one is given. -/
def withDefaultTable (environmentTable? : Option String) (options : BuildOptions) :
    BuildOptions :=
  { options with table? := options.table? <|> environmentTable? }

/-- The argument that announces the path of the output. -/
def outputAnnouncement : String := "-o"

/-- Read the arguments of a command line, in which `-o` takes the argument behind it. -/
def readArguments (options : BuildOptions) : List String → BuildOptions
  | [] => options
  | [argument] => options.merge (parse [argument])
  | argument :: next :: later =>
    if argument = outputAnnouncement then
      readArguments { options with output? := some next } later
    else readArguments (options.merge (parse [argument])) (next :: later)

/-- The arguments of a command line that are no option. -/
def unknownArguments : List String → List String
  | [] => []
  | [argument] => unknown [argument]
  | argument :: next :: later =>
    if argument = outputAnnouncement then unknownArguments later
    else unknown [argument] ++ unknownArguments (next :: later)

/-- The warning about an argument that is no option. -/
def warning (argument : String) : String :=
  s!"warning: unknown option '{argument}'"

end BuildOptions

end ApiReference
