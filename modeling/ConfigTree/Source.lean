import ConfigTree.FilePath

/-!
# Sources of texts

A `ConfigTree.Source` is what files are read from. It says what the first, the second and
every later read of a path gives, a text or an error; so a file may change from read to
read, but it does not change for any other reason. A source has finitely many files: some
list holds every path that can ever be read.

That is what makes a chain of files that include each other end. No file of such a chain
occurs in it twice, so each further file leaves fewer files for the rest
(`ConfigTree.Source.unvisited_append_lt`).
-/

namespace ConfigTree

/-- Why a file could not be read. -/
inductive ReadError.Kind
  /-- There is no such file. -/
  | notFound
  /-- The file may not be read. -/
  | permissionDenied
  /-- Something on the way to the file is no directory. -/
  | notADirectory
  /-- The file is a directory. -/
  | isADirectory
  /-- The path or a name in it is too long. -/
  | invalidFileName
  /-- The path leads through too many symbolic links. -/
  | linkLoop
  /-- The contents are not text. -/
  | invalidData
  /-- There can be no file of this path. -/
  | invalidInput
  /-- Another reason. -/
  | other
deriving DecidableEq

/-- A failed read: its kind, and the wording of the source that was read from. -/
structure ReadError where
  /-- The kind of failure. -/
  kind : ReadError.Kind
  /-- Its wording. -/
  message : String
deriving DecidableEq

/-- What files are read from. -/
structure Source where
  /-- What the read of a path gives that follows this many earlier reads of it. -/
  answer : FilePath → Nat → Except ReadError String
  finite : ∃ known : List FilePath, ∀ path n text, answer path n = .ok text → path ∈ known

namespace Source

/-- The source without files. -/
def empty (e : ReadError) : Source where
  answer _ _ := .error e
  finite := ⟨[], by simp⟩

/-- **Readable** paths: some read of the path gives a text. -/
def Readable (source : Source) (path : FilePath) : Prop :=
  ∃ n text, source.answer path n = .ok text

/-- What was found in a readable file. -/
structure Fetched (source : Source) (path : FilePath) (α : Type) where
  /-- What was found. -/
  value : α
  readable : source.Readable path

/-- The text that a read gives, with the knowledge that the path is readable. -/
def request (source : Source) (path : FilePath) (earlier : Nat) :
    Except ReadError (source.Fetched path String) :=
  match h : source.answer path earlier with
  | .error e => .error e
  | .ok text => .ok ⟨text, earlier, text, h⟩

theorem request_of_error {source : Source} {path : FilePath} {earlier : Nat} {e : ReadError}
    (h : source.answer path earlier = .error e) : source.request path earlier = .error e := by
  unfold request
  split
  · simp_all
  · simp_all

theorem request_of_ok {source : Source} {path : FilePath} {earlier : Nat} {text : String}
    (h : source.answer path earlier = .ok text) :
    source.request path earlier = .ok ⟨text, earlier, text, h⟩ := by
  unfold request
  split
  · simp_all
  · rename_i ht
    have := ht.symm.trans h
    simp_all

/-- A list of paths that holds every readable one. -/
noncomputable def known (source : Source) : List FilePath := source.finite.choose

theorem mem_known {source : Source} {path : FilePath} (h : source.Readable path) :
    path ∈ source.known := by
  obtain ⟨n, text, h⟩ := h
  exact source.finite.choose_spec path n text h

/-- How many known paths are not among the visited ones. -/
noncomputable def unvisited (source : Source) (visited : List FilePath) : Nat :=
  (source.known.filter (· ∉ visited)).length

theorem length_filter_lt {paths visited : List FilePath} {path : FilePath}
    (hp : path ∈ paths) (hv : path ∉ visited) :
    (paths.filter (· ∉ visited ++ [path])).length < (paths.filter (· ∉ visited)).length := by
  have hsub : paths.filter (· ∉ visited ++ [path]) =
      (paths.filter (· ∉ visited)).filter (· ≠ path) := by
    rw [List.filter_filter]
    refine List.filter_congr fun q _ => ?_
    by_cases h₁ : q ∈ visited <;> by_cases h₂ : q = path <;> simp [h₁, h₂]
  rw [hsub]
  refine List.length_filter_lt_length_iff_exists.2 ⟨path, ?_, by simp⟩
  exact List.mem_filter.2 ⟨hp, by simpa using hv⟩

/-- Visiting a readable path leaves fewer unvisited ones. -/
theorem unvisited_append_lt {source : Source} {visited : List FilePath} {path : FilePath}
    (hp : source.Readable path) (hv : path ∉ visited) :
    source.unvisited (visited ++ [path]) < source.unvisited visited :=
  length_filter_lt (mem_known hp) hv

end Source

end ConfigTree
