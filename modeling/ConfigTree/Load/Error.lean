import ConfigTree.FilePath
import ConfigTree.Source
import ConfigTree.Text.Fault
import ConfigTree.ValuePath

/-!
# Load errors

Why a load failed. Each error names what a reader needs to find the fault: the file, and
within it the place in the logical document of that file, where keys have lost their
marks. `ConfigTree.LoadError.message` words an error in one line; where another error lies
behind it, the line ends with the wording of that one, `ConfigTree.LoadError.cause?`.
-/

namespace ConfigTree

/-- Why a load failed. -/
inductive LoadError
  /-- The path of the root file is empty. -/
  | missingPath
  /-- This text does not lead to a directory from which to start. -/
  | unusableDirectory (dir : String) (cause : ReadError)
  /-- A file cannot be read. -/
  | readFailed (path : FilePath) (cause : ReadError)
  /-- A file does not hold a document. -/
  | parseFailed (path : FilePath) (cause : SyntaxError)
  /-- The document of a file is not an object. -/
  | invalidRoot (path : FilePath)
  /-- A file is included that is being resolved, as the last of this chain of files, the
  outermost first. -/
  | cycle (path : FilePath) (chain : List FilePath)
  /-- The public block at this place of a file is not an object. -/
  | invalidPublicBlock (file : FilePath) (place : ValuePath)
  /-- Two members of one object get the same name, at this place of a file. -/
  | keyCollision (file : FilePath) (place : ValuePath) (key : String)
deriving DecidableEq

namespace LoadError

/-- The wording of the error that lies behind this one, if there is one. -/
def cause? : LoadError → Option String
  | .unusableDirectory _ cause => some cause.message
  | .readFailed _ cause => some cause.message
  | .parseFailed _ cause => some cause.message
  | _ => none

/-- **The wording of an error.** -/
def message : LoadError → String
  | .missingPath => "missing config file path"
  | .unusableDirectory dir cause => "failed to read config " ++ dir ++ ": " ++ cause.message
  | .readFailed path cause => "failed to read config " ++ path.text ++ ": " ++ cause.message
  | .parseFailed path cause => "failed to parse config " ++ path.text ++ ": " ++ cause.message
  | .invalidRoot path => "config root must be an object: " ++ path.text
  | .cycle path _ => "include cycle detected at " ++ path.text
  | .invalidPublicBlock file place =>
    "invalid #public directive at " ++ place.text ++ " in " ++ file.text ++
      ": value must be an object"
  | .keyCollision file place key =>
    "public key collision for \"" ++ key ++ "\" at " ++ place.text ++ " in " ++ file.text

end LoadError

end ConfigTree
