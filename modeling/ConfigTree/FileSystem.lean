import ConfigTree.Load

/-!
# File systems

A tree of directories, files and symbolic links, and how the text of a path leads through
it. A path is walked name by name. Two dots in the target of a link lead to the directory
that the walk came from; a link leads on from the directory it is in, or from the top. A
walk follows at most `ConfigTree.FileSystem.linkLimit` links, and neither a whole path nor
a single name may be too long. A file has to hold UTF-8 text to be read.

As a source, a file system gives the same answer to every read of a path. It has finitely
many readable paths even where links make a directory its own descendant, because paths
are bounded (`ConfigTree.FileSystem.exists_paths_of_length_lt`).
-/

namespace ConfigTree

/-- A file, a symbolic link or a directory. -/
inductive FileSystem
  /-- A file with these bytes. -/
  | file (bytes : ByteArray)
  /-- A symbolic link to the path of this text. -/
  | link (target : String)
  /-- A directory with these entries. -/
  | directory (entries : List (String × FileSystem))

namespace FileSystem

/-- The directory without entries. -/
def empty : FileSystem := .directory []

/-- The entries of a directory; anything else has none. -/
def entries : FileSystem → Members FileSystem
  | .directory entries => entries
  | _ => []

/-- Puts something at the end of these names, making the directories on the way. -/
def place (what : FileSystem) : List String → FileSystem → FileSystem
  | [], _ => what
  | name :: rest, dir =>
    let entries := dir.entries
    .directory (entries.put name (place what rest ((entries.get? name).getD empty)))

/-! ### Wording -/

/-- The wording of a failed read. -/
def wording : ReadError.Kind → String
  | .notFound => "No such file or directory (os error 2)"
  | .permissionDenied => "Permission denied (os error 13)"
  | .notADirectory => "Not a directory (os error 20)"
  | .isADirectory => "Is a directory (os error 21)"
  | .invalidFileName => "File name too long (os error 36)"
  | .linkLoop => "Too many levels of symbolic links (os error 40)"
  | .invalidData => "stream did not contain valid UTF-8"
  | .invalidInput => "file name contained an unexpected NUL byte"
  | .other => "other error"

/-- A failed read of this kind. -/
def failure (kind : ReadError.Kind) : ReadError := ⟨kind, wording kind⟩

/-! ### Walking -/

/-- How many bytes characters take in UTF-8. -/
def byteCount : List Char → Nat
  | [] => 0
  | c :: cs => c.utf8Size + byteCount cs

/-- A name may have this many bytes. -/
def nameLimit : Nat := 255

/-- The text of a path has to have fewer bytes than this. -/
def pathLimit : Nat := 4096

/-- A walk follows this many links. -/
def linkLimit : Nat := 40

/-- **A walk** along names from `here`, which was reached through the directories `above`,
the nearest first; `links` more links may be followed. -/
def walk (top : FileSystem) (links : Nat) (here : FileSystem) (above : List FileSystem) :
    List String → Except ReadError.Kind FileSystem
  | [] => .ok here
  | name :: rest =>
    match here with
    | .directory entries =>
      if name = "" ∨ name = "." then walk top links here above rest
      else if name = ".." then
        match above with
        | [] => walk top links here [] rest
        | dir :: dirs => walk top links dir dirs rest
      else if nameLimit < byteCount name.toList then .error .invalidFileName
      else
        match Members.get? entries name with
        | none => .error .notFound
        | some (.link target) =>
          match links with
          | 0 => .error .linkLoop
          | links + 1 =>
            let names := FilePath.pieces target ++ rest
            if FilePath.isAbsolute target then walk top links top [] names
            else walk top links here above names
        | some next => walk top links next (here :: above) rest
    | _ => .error .notADirectory
termination_by names => (links, names.length)

/-- The text in a file. -/
def contents : FileSystem → Except ReadError.Kind String
  | .file bytes => (String.fromUTF8? bytes).elim (.error .invalidData) .ok
  | _ => .error .isADirectory

/-- **The text of the file at a path.** -/
def readText (top : FileSystem) (path : FilePath) : Except ReadError.Kind String :=
  if '\x00' ∈ path.chars then .error .invalidInput
  else if pathLimit ≤ byteCount path.chars then .error .invalidFileName
  else (walk top linkLimit top [] path.components).bind contents

/-! ### As a source -/

theorem length_le_byteCount (cs : List Char) : cs.length ≤ byteCount cs := by
  induction cs with
  | nil => simp
  | cons c cs ih =>
    have := c.utf8Size_pos
    rw [byteCount, List.length_cons]
    omega

/-- Some list holds every text of a bounded length. -/
theorem exists_texts_of_length_le (n : Nat) :
    ∃ texts : List (List Char), ∀ cs : List Char, cs.length ≤ n → cs ∈ texts := by
  induction n with
  | zero => exact ⟨[[]], fun cs h => by simpa using h⟩
  | succ n ih =>
    obtain ⟨texts, htexts⟩ := ih
    let chars := (List.range 0x110000).map Char.ofNat
    have hchars : ∀ c, c ∈ chars := fun c => by
      refine List.mem_map.2 ⟨c.toNat, List.mem_range.2 ?_, Char.ofNat_toNat c⟩
      have := c.valid
      unfold UInt32.isValidChar Nat.isValidChar at this
      unfold Char.toNat
      omega
    refine ⟨[] :: chars.flatMap fun c => texts.map (c :: ·), fun cs h => ?_⟩
    cases cs with
    | nil => exact List.mem_cons_self
    | cons c cs =>
      refine List.mem_cons_of_mem _ (List.mem_flatMap.2 ⟨c, hchars c, List.mem_map.2 ⟨cs, ?_, rfl⟩⟩)
      exact htexts cs (by simpa using h)

/-- Some list holds every path of a bounded length. -/
theorem exists_paths_of_length_lt (n : Nat) :
    ∃ paths : List FilePath, ∀ path : FilePath, path.chars.length < n → path ∈ paths := by
  obtain ⟨texts, htexts⟩ := exists_texts_of_length_le n
  refine ⟨texts.map fun cs => FilePath.root.resolve (String.ofList cs), fun path h => ?_⟩
  exact List.mem_map.2 ⟨path.chars, htexts _ (by omega), FilePath.resolve_text _ path⟩

/-- Only a path of a bounded length leads to a text. -/
theorem length_lt_of_readText {top : FileSystem} {path : FilePath} {text : String}
    (h : top.readText path = .ok text) : path.chars.length < pathLimit := by
  unfold readText at h
  split at h
  · nomatch h
  · split at h
    · nomatch h
    · have := length_le_byteCount path.chars
      omega

/-- The answer of the file system to a read. -/
def answer (top : FileSystem) (path : FilePath) : Except ReadError String :=
  (top.readText path).mapError failure

theorem readText_of_answer {top : FileSystem} {path : FilePath} {text : String}
    (h : top.answer path = .ok text) : top.readText path = .ok text := by
  unfold answer at h
  cases hr : top.readText path with
  | error kind => rw [hr] at h; nomatch h
  | ok text' => rw [hr] at h; cases h; rfl

/-- The file system as a source; its files do not change. -/
def source (top : FileSystem) : Source where
  answer path _ := top.answer path
  finite :=
    (exists_paths_of_length_lt pathLimit).imp fun _ hpaths path _ _ h =>
      hpaths path (length_lt_of_readText (readText_of_answer h))

/-- The file system as what a process finds that works in `dir`. -/
def environment (top : FileSystem) (dir : Option FilePath) : Environment :=
  ⟨top.source, dir.elim (.error (failure .notFound)) .ok⟩

end FileSystem

end ConfigTree
