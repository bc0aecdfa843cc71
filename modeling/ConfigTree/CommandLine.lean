import ConfigTree.Load

/-!
# The command line

The command prints a configuration, or only its public subset, on indented lines or
compactly. Its arguments are read from the left, and the first one that decides the matter
does: a request for help or for the version, or an argument that cannot stand where it
does (`ConfigTree.CommandLine.Request.ofArguments`). After two dashes every argument is a
path, and a single dash is one anywhere; there has to be exactly one path, and it may not
be empty.

`ConfigTree.CommandLine.run` is the whole command as a function of its surroundings and
its arguments: what it writes, how it exits, and which files it asked for.
-/

namespace ConfigTree

namespace CommandLine

/-! ### Arguments -/

/-- How a configuration is to be printed. -/
structure Options where
  /-- Whether only the public subset is printed. -/
  publicOnly : Bool
  /-- Whether it is printed compactly. -/
  compact : Bool
deriving DecidableEq

/-- Why arguments are refused. -/
inductive UsageError
  /-- There is no such option, or an option cannot stand there. -/
  | unexpected (argument : String)
  /-- An option is given twice. -/
  | repeated (option : String)
  /-- The path is empty. -/
  | emptyPath
  /-- There is no path. -/
  | noPath
deriving DecidableEq

/-- What the arguments ask for. -/
inductive Request
  /-- To print the configuration of this root file. -/
  | print (options : Options) (path : String)
  /-- To print the version. -/
  | version
  /-- To print how the command is used. -/
  | help
  /-- Nothing that can be done. -/
  | refused (reason : UsageError)
deriving DecidableEq

namespace Request

/-- What a path adds to the paths before it. -/
def withPath (path? : Option String) (argument : String) : Except UsageError String :=
  if path?.isSome then .error (.unexpected argument)
  else if argument = "" then .error .emptyPath
  else .ok argument

/-- The request after two dashes, where all arguments are paths. -/
def ofPaths (options : Options) (path? : Option String) : List String → Request
  | [] => path?.elim (.refused .noPath) (.print options)
  | argument :: rest =>
    match withPath path? argument with
    | .ok path => ofPaths options (some path) rest
    | .error e => .refused e

/-- The request of arguments, after options and paths before them. -/
def ofRest (options : Options) (path? : Option String) : List String → Request
  | [] => path?.elim (.refused .noPath) (.print options)
  | argument :: rest =>
    if argument = "--" then ofPaths options path? rest
    else if argument = "--version" then .version
    else if argument = "--help" then .help
    else if argument = "--public" then
      if options.publicOnly then .refused (.repeated argument)
      else ofRest { options with publicOnly := true } path? rest
    else if argument = "--compact" then
      if options.compact then .refused (.repeated argument)
      else ofRest { options with compact := true } path? rest
    else
      match argument.toList with
      | '-' :: 'V' :: _ => .version
      | '-' :: 'h' :: _ => .help
      | '-' :: _ :: _ => .refused (.unexpected argument)
      | _ =>
        match withPath path? argument with
        | .ok path => ofRest options (some path) rest
        | .error e => .refused e

/-- **What arguments ask for.** -/
def ofArguments (arguments : List String) : Request := ofRest ⟨false, false⟩ none arguments

end Request

/-! ### Texts -/

/-- The name of the command. -/
def name : String := "config-cjson"

/-- The line that names the version. -/
def versionLine : String := name ++ " 0.1.0\n"

/-- How the command is called. -/
def usageLine : String := "Usage: " ++ name ++ " [OPTIONS] <CONFIG>\n"

/-- How the command is used. -/
def helpText : String :=
  "Returns config object from hierarchy of cjson config files.\n\n" ++ usageLine ++
    "\nArguments:\n  <CONFIG>  Root config file path\n\nOptions:\n" ++
    "      --public   Print only the public subset\n" ++
    "      --compact  Print the result on a single line\n" ++
    "  -h, --help     Print help\n" ++
    "  -V, --version  Print version\n"

/-- The wording of refused arguments. -/
def UsageError.message : UsageError → String
  | .unexpected argument => "unexpected argument \"" ++ argument ++ "\" found"
  | .repeated option => "the argument \"" ++ option ++ "\" cannot be used multiple times"
  | .emptyPath => "a value is required for \"<CONFIG>\" but none was supplied"
  | .noPath => "the following required arguments were not provided:\n  <CONFIG>"

/-- A text whose further lines are indented. -/
def indented (indent : String) (text : String) : String :=
  String.ofList (text.toList.flatMap fun c => if c = '\n' then '\n' :: indent.toList else [c])

/-- One of several causes, with its number. -/
def numberedCause (i : Nat) (cause : String) : String :=
  "    " ++ toString i ++ ": " ++ indented "       " cause ++ "\n"

/-- **The wording of a failure**: what could not be done and then its causes, each the cause
of the one before it. Several causes are numbered from zero. -/
def failureText (attempt cause : String) (further : Option String) : String :=
  "Error: " ++ attempt ++ "\n\nCaused by:\n" ++
    match further with
    | none => "    " ++ indented "    " cause ++ "\n"
    | some root => numberedCause 0 cause ++ numberedCause 1 root

/-! ### Running -/

/-- What a run of the command leaves behind. -/
structure Outcome where
  /-- The exit code. -/
  exit : Nat
  /-- What is written to standard output. -/
  stdout : String
  /-- What is written to standard error. -/
  stderr : String
  /-- The files that were asked for. -/
  reads : List FilePath

/-- The document that is printed. -/
def Options.selected (options : Options) (loaded : Loaded) : Document :=
  if options.publicOnly then loaded.publicSubset else loaded.combined

/-- The text of a printed document. -/
def Options.render (options : Options) (d : Document) : String :=
  (if options.compact then d.compact else d.pretty) ++ "\n"

/-- Prints the configuration of a root file. -/
def print (env : Environment) (options : Options) (path : String) : Outcome :=
  match env.workingDirectory with
  | .error e =>
    let error := LoadError.unusableDirectory "." e
    let text := failureText "failed to resolve working directory" error.message error.cause?
    ⟨1, "", text, []⟩
  | .ok dir =>
    let report := load env dir.text path
    match report.outcome with
    | .ok loaded => ⟨0, options.render (options.selected loaded), "", report.reads⟩
    | .error e =>
      let attempt := "failed to load config from " ++ path
      ⟨1, "", failureText attempt e.message e.cause?, report.reads⟩

/-- **The command** with these arguments. -/
def run (env : Environment) (arguments : List String) : Outcome :=
  match Request.ofArguments arguments with
  | .print options path => print env options path
  | .version => ⟨0, versionLine, "", []⟩
  | .help => ⟨0, helpText, "", []⟩
  | .refused reason => ⟨2, "", "error: " ++ reason.message ++ "\n\n" ++ usageLine, []⟩

end CommandLine

end ConfigTree
