/-!
# File paths

A `ConfigTree.FilePath` is an absolute path in normal form: the names that lead from the
root of the file system to a file. Two paths are equal exactly when their texts are
(`ConfigTree.FilePath.text_injective`), and a path serves as the identity of a file.

A text is followed from a directory name by name, without a look at any file
(`ConfigTree.FilePath.follow`): a pair of dots steps back to the parent, where there is
one, and an empty piece or a single dot does nothing. `ConfigTree.FilePath.resolve` starts
from the root for an absolute text and from the given directory for a relative one. The
text of a path leads back to it from anywhere (`ConfigTree.FilePath.resolve_text`).
-/

namespace ConfigTree

/-- A name of a file in its directory: no slash in it, and none of the texts that have a
meaning of their own in a path. -/
def IsFileName (name : String) : Prop :=
  name ≠ "" ∧ name ≠ "." ∧ name ≠ ".." ∧ '/' ∉ name.toList

instance (name : String) : Decidable (IsFileName name) := by
  unfold IsFileName
  infer_instance

/-- An absolute path in normal form. -/
structure FilePath where
  /-- The names from the root on. -/
  components : List String
  areNames : ∀ name ∈ components, IsFileName name
deriving DecidableEq

namespace FilePath

/-- The root of the file system. -/
def root : FilePath := ⟨[], by simp⟩

/-- The directory that a path lies in; the root is its own. -/
def parent (p : FilePath) : FilePath :=
  ⟨p.components.dropLast, fun name h => p.areNames name (List.dropLast_subset _ h)⟩

/-! ### Text -/

/-- The characters of a path: each name after a slash, and for the root one slash. -/
def chars (p : FilePath) : List Char :=
  if p.components = [] then ['/'] else p.components.flatMap fun name => '/' :: name.toList

/-- The text of a path. -/
def text (p : FilePath) : String := String.ofList p.chars

/-- The pieces between the slashes of a text; there is always at least one. -/
def splitSlash : List Char → List (List Char)
  | [] => [[]]
  | c :: rest =>
    if c = '/' then [] :: splitSlash rest
    else match splitSlash rest with
      | [] => [[c]]
      | piece :: pieces => (c :: piece) :: pieces

/-- The pieces between the slashes of a path's text. -/
def pieces (text : String) : List String := (splitSlash text.toList).map String.ofList

/-! ### Following a text -/

/-- One step from a directory: two dots lead to the parent, a name to the file of that
name, and anything else nowhere. -/
def enter (dir : FilePath) (piece : String) : FilePath :=
  if piece = ".." then dir.parent
  else if h : IsFileName piece then
    ⟨dir.components ++ [piece], fun name hn => by
      rcases List.mem_append.1 hn with hn | hn
      · exact dir.areNames name hn
      · exact (List.mem_singleton.1 hn) ▸ h⟩
  else dir

/-- All steps of a text from a directory. -/
def follow (dir : FilePath) (text : String) : FilePath := (pieces text).foldl enter dir

/-- Whether a text is an absolute path. -/
def isAbsolute (text : String) : Bool := text.toList.head? = some '/'

/-- **The file that a text names** in a directory. -/
def resolve (dir : FilePath) (text : String) : FilePath :=
  follow (if isAbsolute text then root else dir) text

/-! ### The text of a path leads back to it -/

theorem splitSlash_ne_nil (cs : List Char) : splitSlash cs ≠ [] := by
  cases cs with
  | nil => simp [splitSlash]
  | cons c cs =>
    rw [splitSlash]
    split
    · simp
    · split <;> simp

theorem splitSlash_slash (cs : List Char) : splitSlash ('/' :: cs) = [] :: splitSlash cs := by
  rw [splitSlash, if_pos rfl]

theorem splitSlash_of_not_mem {cs : List Char} (h : '/' ∉ cs) : splitSlash cs = [cs] := by
  induction cs with
  | nil => rfl
  | cons c cs ih =>
    simp only [List.mem_cons, not_or] at h
    rw [splitSlash, if_neg (Ne.symm h.1), ih h.2]

/-- The pieces of two texts with a slash between them are those of the one and of the other. -/
theorem splitSlash_append (cs rest : List Char) :
    splitSlash (cs ++ '/' :: rest) = splitSlash cs ++ splitSlash rest := by
  induction cs with
  | nil => exact splitSlash_slash rest
  | cons c cs ih =>
    rw [List.cons_append, splitSlash, splitSlash, ih]
    split
    · rfl
    · cases h : splitSlash cs with
      | nil => exact absurd h (splitSlash_ne_nil cs)
      | cons piece pieces => rfl

theorem splitSlash_names {name : String} {names : List String}
    (h : ∀ n ∈ name :: names, IsFileName n) :
    splitSlash (name.toList ++ names.flatMap fun n => '/' :: n.toList) =
      (name :: names).map String.toList := by
  induction names generalizing name with
  | nil => simpa using splitSlash_of_not_mem (h name (by simp)).2.2.2
  | cons next names ih =>
    rw [List.flatMap_cons, List.cons_append, splitSlash_append,
      splitSlash_of_not_mem (h name (by simp)).2.2.2,
      ih fun n hn => h n (List.mem_cons_of_mem _ hn)]
    rfl

theorem pieces_text (p : FilePath) : pieces p.text = if p.components = [] then ["", ""]
    else "" :: p.components := by
  obtain ⟨names, hnames⟩ := p
  cases names with
  | nil => simp [pieces, text, chars, splitSlash]
  | cons name names =>
    simp only [pieces, text, chars, String.toList_ofList, reduceCtorEq, if_false,
      List.flatMap_cons, List.cons_append]
    rw [splitSlash_slash, splitSlash_names hnames, List.map_cons, List.map_map]
    simp [Function.comp_def]

theorem isAbsolute_text (p : FilePath) : isAbsolute p.text = true := by
  obtain ⟨names, hnames⟩ := p
  cases names <;> simp [isAbsolute, text, chars]

theorem text_ne_empty (p : FilePath) : p.text ≠ "" := by
  intro h
  have habsolute := isAbsolute_text p
  rw [h] at habsolute
  exact absurd habsolute (by decide)

@[simp] theorem enter_empty (dir : FilePath) : dir.enter "" = dir := by
  simp [enter, IsFileName]

theorem components_enter {dir : FilePath} {name : String} (h : IsFileName name) :
    (dir.enter name).components = dir.components ++ [name] := by
  rw [enter, if_neg h.2.2.1, dif_pos h]

theorem components_foldl_enter {dir : FilePath} {names : List String}
    (h : ∀ n ∈ names, IsFileName n) :
    (names.foldl enter dir).components = dir.components ++ names := by
  induction names generalizing dir with
  | nil => simp
  | cons name names ih =>
    rw [List.foldl_cons, ih fun n hn => h n (List.mem_cons_of_mem _ hn),
      components_enter (h name (by simp)), List.append_assoc]
    rfl

@[ext] theorem ext {p q : FilePath} (h : p.components = q.components) : p = q := by
  cases p
  cases q
  simp_all

/-- **The text of a path** names it from every directory. -/
@[simp] theorem resolve_text (dir p : FilePath) : dir.resolve p.text = p := by
  apply ext
  rw [resolve, isAbsolute_text, if_pos rfl, follow, pieces_text]
  split
  · rename_i h
    simp [h, root]
  · rw [List.foldl_cons, enter_empty, components_foldl_enter p.areNames]
    simp [root]

/-- Different paths have different texts. -/
theorem text_injective {p q : FilePath} (h : p.text = q.text) : p = q := by
  rw [← resolve_text root p, h, resolve_text]

end FilePath

end ConfigTree
