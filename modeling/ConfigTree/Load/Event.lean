import ConfigTree.Document.Printer
import ConfigTree.FilePath
import ConfigTree.ValuePath

/-!
# Events of a load

What a load reports while it runs. Every event has a level and a wording, and
`ConfigTree.Event.line` is the line that a log shows.
-/

namespace ConfigTree

/-- How much detail an event belongs to. -/
inductive Event.Level
  | info
  | debug
  | trace
deriving DecidableEq

/-- The wording of a level. -/
def Event.Level.text : Event.Level → String
  | .info => "INFO"
  | .debug => "DEBUG"
  | .trace => "TRACE"

/-- Something that happens in a load. -/
inductive Event
  /-- The load of a root file begins. -/
  | loading (root : FilePath)
  /-- A file is about to be read. -/
  | reading (path : FilePath)
  /-- A file that was read before is used again. -/
  | cacheHit (path : FilePath)
  /-- An item of an include list is no string. -/
  | ignoredItem (file : FilePath) (place : ValuePath) (value : Document)
  /-- The value of an include member is neither a string nor a list. -/
  | ignoredInclude (file : FilePath) (place : ValuePath) (value : Document)
  /-- The paths of an include member are known. -/
  | includesFound (file : FilePath) (count : Nat)
  /-- A file is included by another one. -/
  | including (file path : FilePath)
  /-- The public members of the merged tree are known. -/
  | extracted (count : Nat)
  /-- The load is done. -/
  | loaded (files : Nat)

namespace Event

/-- The level of an event. -/
def level : Event → Level
  | .loading _ | .loaded _ => .info
  | .cacheHit _ | .includesFound _ _ => .trace
  | _ => .debug

/-- The wording of an event. -/
def message : Event → String
  | .loading root => "loading config from path: " ++ root.text
  | .reading path => "reading config file (path=" ++ path.text ++ ")"
  | .cacheHit path => "config cache hit (path=" ++ path.text ++ ")"
  | .ignoredItem file place value =>
    "ignoring non-string include entry (file=" ++ file.text ++ ", at=" ++ place.text ++
      ", value=" ++ value.compact ++ ")"
  | .ignoredInclude file place value =>
    "ignoring #include with unsupported value (file=" ++ file.text ++ ", at=" ++ place.text ++
      ", value=" ++ value.compact ++ ")"
  | .includesFound file count =>
    "include paths resolved (file=" ++ file.text ++ ", count=" ++ toString count ++ ")"
  | .including file path =>
    "including config (from=" ++ file.text ++ ", path=" ++ path.text ++ ")"
  | .extracted count => "extracted public members (count=" ++ toString count ++ ")"
  | .loaded files => "config loaded (files=" ++ toString files ++ ")"

/-- The line of a log. -/
def line (e : Event) : String := e.level.text ++ " " ++ e.message

end Event

end ConfigTree
