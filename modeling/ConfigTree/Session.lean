import ConfigTree.MemoryFiles

/-!
# Sessions

A session is a sequence of steps on one store of files, with one directory from which all
its loads start. Loads share nothing but the store: what a load read earlier shows only in
what the store gives next.
-/

namespace ConfigTree

/-- A step of a session. -/
inductive SessionStep
  /-- Writes a file. -/
  | write (path : String) (content : MemoryFile.Content)
  /-- Removes a file. -/
  | remove (path : String)
  /-- Asks for the directory from which loads start. -/
  | options
  /-- Loads a configuration. -/
  | load (path : String)

/-- The answer to a step of a session. -/
inductive SessionAnswer
  /-- The file was written. -/
  | written
  /-- Whether there was a file to remove. -/
  | removed (found : Bool)
  /-- The directory from which loads start, as it was given. -/
  | options (cwd : String)
  /-- The report of a load. -/
  | loaded (report : Report)

namespace SessionStep

/-- The store after a step, and the answer to it. -/
def run (cwd : String) (files : MemoryFiles) : SessionStep → MemoryFiles × SessionAnswer
  | .write path content => (files.write path content, .written)
  | .remove path => (files.erase path, .removed (files.has path))
  | .options => (files, .options cwd)
  | .load path =>
    let report := ConfigTree.load files.environment cwd path
    (files.advance report.reads, .loaded report)

/-- **The answers to the steps of a session.** -/
def runAll (cwd : String) : MemoryFiles → List SessionStep → List SessionAnswer
  | _, [] => []
  | files, step :: steps =>
    let (after, answer) := step.run cwd files
    answer :: runAll cwd after steps

end SessionStep

end ConfigTree
