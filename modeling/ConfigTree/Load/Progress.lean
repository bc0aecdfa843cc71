import ConfigTree.Document.Parser
import ConfigTree.Load.Error
import ConfigTree.Load.Event

/-!
# The progress of a load

A load asks its source for each file at most once: a file that was read and parsed stays
in a cache for the rest of the load. `ConfigTree.Progress` is what a load has done so far:
the paths that it asked for, the files that it holds, and the events that it reported.
`ConfigTree.Load` is a computation that makes such progress; when it fails, the progress
up to the failure stays.

`ConfigTree.Load.fetch` is the only access to the source. It comes with the knowledge that
the file it returns is readable, and a file in the cache keeps that knowledge.
-/

namespace ConfigTree

/-- A file that was read and parsed. -/
structure CachedFile (source : Source) where
  /-- The path that was asked for. -/
  path : FilePath
  /-- The document in the file. -/
  document : Document
  readable : source.Readable path

/-- What a load has done so far. -/
structure Progress (source : Source) where
  /-- The paths asked of the source, in order; failed reads are among them. -/
  reads : List FilePath
  /-- The files read and parsed, in order of the first read. -/
  cache : List (CachedFile source)
  /-- The events reported, in order. -/
  log : Array Event

namespace Progress

variable {source : Source}

/-- Nothing done yet. -/
def start : Progress source := ⟨[], [], #[]⟩

/-- The paths of the files read and parsed, in order of the first read. -/
def files (progress : Progress source) : List FilePath := progress.cache.map (·.path)

/-- The document of the first of these files that has a path. -/
def lookup? (path : FilePath) :
    List (CachedFile source) → Option (source.Fetched path Document)
  | [] => none
  | file :: rest =>
    if h : file.path = path then some ⟨file.document, h ▸ file.readable⟩ else lookup? path rest

/-- The document in a file, if the file was read and parsed. -/
def cached? (progress : Progress source) (path : FilePath) :
    Option (source.Fetched path Document) :=
  lookup? path progress.cache

end Progress

/-- A computation that makes progress on a load, and may fail. -/
abbrev Load (source : Source) := EStateM LoadError (Progress source)

namespace Load

variable {source : Source}

/-- Reports an event. -/
def emit (event : Event) : Load source Unit :=
  modify fun progress => { progress with log := progress.log.push event }

/-- Asks the source for a file. -/
def ask (path : FilePath) : Load source (source.Fetched path String) := do
  emit (.reading path)
  let earlier := (← get).reads.count path
  modify fun progress => { progress with reads := progress.reads ++ [path] }
  match source.request path earlier with
  | .error e => throw (.readFailed path e)
  | .ok file => return file

/-- Reads and parses a file that is not in the cache, and puts it there. -/
def read (path : FilePath) : Load source (source.Fetched path Document) := do
  let file ← ask path
  match Document.parse file.value with
  | .error e => throw (.parseFailed path e)
  | .ok d =>
    modify fun progress => { progress with cache := progress.cache ++ [⟨path, d, file.readable⟩] }
    return ⟨d, file.readable⟩

/-- **The document in a file**, from the cache if it is there. -/
def fetch (path : FilePath) : Load source (source.Fetched path Document) := do
  match (← get).cached? path with
  | some file =>
    emit (.cacheHit path)
    return file
  | none => read path

/-- The members of the object in a file. -/
def fetchMembers (path : FilePath) : Load source (source.Fetched path (Members Document)) := do
  match ← fetch path with
  | ⟨.object members, h⟩ => return ⟨members, h⟩
  | _ => throw (.invalidRoot path)

end Load

end ConfigTree
