import ConfigTree.CommandLine
import ConfigTree.FileSystem
import ConfigTree.Snapshot

/-!
# The program

The command line on the files of the machine. The command itself is a function of a source
of files, so the program runs it on a snapshot of the files read so far. As long as the
command asks for a file that is not in the snapshot, that file is read, and the command is
run again on the larger snapshot.
-/

namespace ConfigTree

namespace Program

/-- The code in an error; some parts of the runtime negate the number of the error. -/
def osCode? : IO.Error → Option UInt32
  | .noFileOrDirectory _ code _ => some code
  | .permissionDenied _ code _ => some code
  | .inappropriateType _ code _ => some code
  | .invalidArgument _ code _ => some code
  | .resourceExhausted _ code _ => some code
  | .unsatisfiedConstraints code _ => some code
  | .illegalOperation code _ => some code
  | .otherError code _ => some code
  | _ => none

/-- The number by which the operating system names an error. -/
def osNumber? (e : IO.Error) : Option Nat :=
  (osCode? e).map fun code => min code.toNat (-code).toNat

/-- The read error that an error of the operating system is. -/
def readError (e : IO.Error) : ReadError :=
  match osNumber? e with
  | some 2 => FileSystem.failure .notFound
  | some 13 => FileSystem.failure .permissionDenied
  | some 20 => FileSystem.failure .notADirectory
  | some 21 => FileSystem.failure .isADirectory
  | some 36 => FileSystem.failure .invalidFileName
  | some 40 => FileSystem.failure .linkLoop
  | _ => ⟨.other, toString e⟩

/-- Reads a file. -/
def readFile (path : FilePath) : IO (Except ReadError String) := do
  if '\x00' ∈ path.chars then return .error (FileSystem.failure .invalidInput)
  try
    let bytes ← IO.FS.readBinFile path.text
    return ((FileSystem.file bytes).contents).mapError FileSystem.failure
  catch e => return .error (readError e)

/-- The working directory. -/
def workingDirectory : IO (Except ReadError FilePath) := do
  try
    let dir ← IO.currentDir
    return .ok (FilePath.root.resolve dir.toString)
  catch e => return .error (readError e)

/-- Runs the command, reading the files that it asks for. -/
partial def run (dir : Except ReadError FilePath) (arguments : List String)
    (snapshot : Snapshot) : IO CommandLine.Outcome := do
  let outcome := CommandLine.run ⟨snapshot.source, dir⟩ arguments
  match snapshot.missing? outcome.reads with
  | none => return outcome
  | some path => run dir arguments (snapshot ++ [(path, ← readFile path)])

end Program

end ConfigTree

/-- The program. -/
def main (arguments : List String) : IO UInt32 := do
  let dir ← ConfigTree.Program.workingDirectory
  let outcome ← ConfigTree.Program.run dir arguments []
  IO.print outcome.stdout
  IO.eprint outcome.stderr
  return outcome.exit.toUInt32
