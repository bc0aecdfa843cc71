import ConfigTree.Load

/-!
# Files in memory

A store of files that are only in memory. A file holds the texts that its successive reads
give, the last of which is given from then on, or it may not be read at all. The store
counts the reads of each file, so that the next load goes on where the last one ended;
writing a file starts its count again.

`ConfigTree.MemoryFiles.source` is the store at one moment as a source, and
`ConfigTree.MemoryFiles.advance` is the store after some reads of that source.
-/

namespace ConfigTree

/-- What a file in memory gives when it is read. -/
inductive MemoryFile.Content
  /-- The texts of successive reads. -/
  | texts (ts : List String)
  /-- Nothing: the file may not be read. -/
  | locked
deriving DecidableEq

/-- A file in memory. -/
structure MemoryFile where
  /-- What reads give. -/
  content : MemoryFile.Content
  /-- How many reads there were. -/
  taken : Nat
deriving DecidableEq

namespace MemoryFile

/-- The error for a path without a file. -/
def missing : ReadError := ⟨.notFound, "no such file"⟩

/-- The error for a locked file. -/
def denied : ReadError := ⟨.permissionDenied, "permission denied"⟩

/-- **What a read gives** that follows `n` earlier ones. -/
def Content.answer (n : Nat) : Content → Except ReadError String
  | .locked => .error denied
  | .texts ts =>
    match ts[min n (ts.length - 1)]? with
    | some text => .ok text
    | none => .error missing

end MemoryFile

/-- A store of files in memory, each under the text of its path. -/
abbrev MemoryFiles := Members MemoryFile

namespace MemoryFiles

/-- Writes a file. -/
def write (files : MemoryFiles) (path : String) (content : MemoryFile.Content) : MemoryFiles :=
  files.put path ⟨content, 0⟩

/-- A store with these files. -/
def ofContents (contents : List (String × MemoryFile.Content)) : MemoryFiles :=
  contents.foldl (fun files file => write files file.1 file.2) []

/-- A store of files that do not change, each with the text of a document. -/
def ofDocuments (documents : List (String × Document)) : MemoryFiles :=
  ofContents (documents.map fun (path, d) => (path, .texts [d.compact]))

/-- The store as a source, from its next reads on. -/
def source (files : MemoryFiles) : Source where
  answer path n :=
    match files.get? path.text with
    | some file => file.content.answer (file.taken + n)
    | none => .error MemoryFile.missing
  finite := by
    refine ⟨files.keys.map (FilePath.resolve .root), fun path n text h => ?_⟩
    split at h
    · rename_i file hf
      have hk : path.text ∈ files.keys :=
        List.mem_map_of_mem (Members.mem_of_get? hf)
      exact List.mem_map.2 ⟨path.text, hk, FilePath.resolve_text _ _⟩
    · simp at h

/-- What the store gives for a path is what the file under its text gives next. -/
theorem answer_source (files : MemoryFiles) (path : FilePath) (n : Nat) :
    files.source.answer path n =
      (files.get? path.text).elim (.error MemoryFile.missing) fun file =>
        file.content.answer (file.taken + n) := by
  dsimp only [source]
  cases files.get? path.text <;> rfl

/-- The store after these reads. -/
def advance (files : MemoryFiles) (reads : List FilePath) : MemoryFiles :=
  files.map fun (path, file) =>
    (path, { file with taken := file.taken + (reads.map FilePath.text).count path })

/-- The store as the files of a process that works in the root directory. -/
def environment (files : MemoryFiles) : Environment := ⟨files.source, .ok .root⟩

end MemoryFiles

end ConfigTree
