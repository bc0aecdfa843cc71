import ConfigTree.Document.Subset
import ConfigTree.Load.Expansion

/-!
# Loading a configuration

`ConfigTree.load` takes the text of a path, relative to a directory that is itself given as
a text, and loads the configuration whose root file it names. A successful load gives a
`ConfigTree.Loaded`: the members of the merged tree without any directive or mark, the
places of the outermost public members, and the files that were read. From these come the
public subset, which holds the public members at the places they have in the whole, and
the whole with the public subset in it (`ConfigTree.Loaded.combined`).

`ConfigTree.Report` is all that can be seen of a load, successful or not: its outcome, the
paths that it asked for, and its log.
-/

namespace ConfigTree

/-- What a load finds around it: files, and the directory of the running process. -/
structure Environment where
  /-- What files are read from. -/
  source : Source
  /-- The working directory of the process, unless it has none. -/
  workingDirectory : Except ReadError FilePath

namespace Environment

/-- The error for an empty directory. -/
def emptyDirectory : ReadError := ⟨.invalidInput, "cannot make an empty path absolute"⟩

/-- **The directory that a text names** from the working directory of the process. Only a
relative text needs that. -/
def directory (env : Environment) (text : String) : Except ReadError FilePath :=
  if text = "" then .error emptyDirectory
  else if FilePath.isAbsolute text then .ok (FilePath.root.follow text)
  else env.workingDirectory.map (·.follow text)

end Environment

/-- A configuration that was loaded. -/
structure Loaded where
  /-- The members of the merged tree. -/
  members : Members Document
  /-- The places of the outermost public members, in the order of the document. -/
  publicPaths : List ValuePath
  /-- The files that were read, in order of the first read. -/
  files : List FilePath

namespace Loaded

/-- The merged tree. -/
def config (loaded : Loaded) : Document := .object loaded.members

/-- **The public subset** of the merged tree. -/
def publicSubset (loaded : Loaded) : Document := loaded.config.subset loaded.publicPaths

/-- **The merged tree with the public subset in it**, under the key of public blocks. -/
def combined (loaded : Loaded) : Document :=
  .object (loaded.members.put Directive.publicKey loaded.publicSubset)

end Loaded

/-- All that can be seen of a load. -/
structure Report where
  /-- The configuration, or why there is none. -/
  outcome : Except LoadError Loaded
  /-- The paths asked of the source, in order; failed reads are among them. -/
  reads : List FilePath
  /-- The events reported, in order. -/
  log : List Event

namespace Load

variable {source : Source}

/-- The tree of the root file, expanded. -/
def expandRoot (root : FilePath) : Load source (Members (Bool × Marked)) := do
  emit (.loading root)
  let file ← fetchMembers root
  expandObject (.top root) file.value

/-- Splits an expanded tree into its plain members and the places of its marks. -/
def finish (tree : Members (Bool × Marked)) : Load source Loaded := do
  let paths := Marked.memberPaths tree
  emit (.extracted paths.length)
  let files := (← get).files
  emit (.loaded files.length)
  return ⟨Marked.plainMembers tree, paths, files⟩

/-- Loads the configuration of a root file. -/
def root (path : FilePath) : Load source Loaded := do
  finish (← expandRoot path)

/-- What can be seen of a computation that starts with no progress. -/
def toReport (load : Load source Loaded) : Report :=
  match EStateM.run load .start with
  | .ok loaded progress => ⟨.ok loaded, progress.reads, progress.log.toList⟩
  | .error e progress => ⟨.error e, progress.reads, progress.log.toList⟩

end Load

/-- **Loads a configuration**: `path` is relative to the directory `cwd`, and that to the
working directory of the process. -/
def load (env : Environment) (cwd path : String) : Report :=
  if path = "" then ⟨.error .missingPath, [], []⟩
  else match env.directory cwd with
    | .error e => ⟨.error (.unusableDirectory cwd e), [], []⟩
    | .ok dir => (Load.root (dir.resolve path) : Load env.source Loaded).toReport

/-- Loads a configuration from the working directory of the process. -/
def loadHere (env : Environment) (path : String) : Report :=
  if path = "" then ⟨.error .missingPath, [], []⟩
  else match env.workingDirectory with
    | .error e => ⟨.error (.unusableDirectory "." e), [], []⟩
    | .ok dir => load env dir.text path

end ConfigTree
