import ConfigTree.Proofs.Spelling

/-!
# Texts of absolute paths

A load holds a path only as its names from the root on, and joins no texts: what a text names is
followed from the names of a directory. Here this is held against the texts alone. A
`ConfigTree.AbsoluteText` is any text that begins with a slash, whatever slashes and dots follow. It
is a slash and its components, with slashes between them
(`ConfigTree.AbsoluteText.ofComponents_components`), and its normal form is a slash and the names
that are left of these components (`ConfigTree.AbsoluteText.normalises_components`).

To resolve a text below a directory is then to join the two and to take the normal form of that
(`ConfigTree.AbsoluteText.resolve`). The spelling of the directory does not matter, because where
the directory leads is all that is left of it when the text after it begins
(`ConfigTree.AbsoluteText.resolve_eq`); so it goes for a text that climbs above the directory, and
for one that climbs above the root.

## The normal form as an identity

A path in normal form may be resolved once more, from wherever, and stays the same. That is why it
does not matter that a file which is included is first resolved, to be looked for among the files
above it, and then resolved again to be read: both are `ConfigTree.Scope.target`
(`ConfigTree.AbsoluteText.normalForm_canonical`).
-/

namespace ConfigTree

/-- **The text of an absolute path**, in any spelling. -/
@[ext] structure AbsoluteText where
  /-- The text. -/
  text : String
  isAbsolute : FilePath.isAbsolute text = true

namespace FilePath

/-- The text of a path is absolute. -/
def absoluteText (p : FilePath) : AbsoluteText := ⟨p.text, p.isAbsolute_text⟩

/-! ### Pieces of a text -/

/-- The pieces of two texts with a slash between them are those of the one and of the other. -/
theorem pieces_append_slash (first rest : String) :
    pieces (first ++ "/" ++ rest) = pieces first ++ pieces rest := by
  have htext : (first ++ "/" ++ rest).toList = first.toList ++ '/' :: rest.toList := by simp
  rw [pieces, htext, splitSlash_append, List.map_append]
  rfl

theorem intercalate_splitSlash (cs : List Char) : ['/'].intercalate (splitSlash cs) = cs := by
  induction cs with
  | nil => rfl
  | cons c cs ih =>
    rw [splitSlash]
    cases h : splitSlash cs with
    | nil => exact absurd h (splitSlash_ne_nil cs)
    | cons piece pieces =>
      rw [h] at ih
      split
      · rename_i hc
        rw [List.intercalate_cons_cons, ih, hc]
        rfl
      · -- the character joins the first of the other pieces
        rw [← ih]
        cases pieces <;> simp [List.intercalate]

/-- **A text is its pieces**, with slashes between them. -/
theorem intercalate_pieces (text : String) : "/".intercalate (pieces text) = text := by
  apply String.toList_inj.1
  rw [String.toList_intercalate, pieces, List.map_map]
  simpa [Function.comp_def] using intercalate_splitSlash text.toList

/-! ### Following a text -/

/-- **A text after a slash** is followed from where the text before the slash leads. -/
theorem follow_append_slash (dir : FilePath) (first rest : String) :
    dir.follow (first ++ "/" ++ rest) = (dir.follow first).follow rest := by
  rw [follow, pieces_append_slash, List.foldl_append]
  rfl

theorem follow_empty (dir : FilePath) : dir.follow "" = dir := enter_empty dir

/-- A slash at the end leads nowhere. -/
theorem follow_slash (dir : FilePath) (first : String) :
    dir.follow (first ++ "/") = dir.follow first := by
  have h := follow_append_slash dir first ""
  rwa [follow_empty, String.append_empty] at h

/-- **A text after one that ends in a slash** is followed in the same way. -/
theorem follow_append_of_getLast? {first : String} (h : first.toList.getLast? = some '/')
    (dir : FilePath) (rest : String) :
    dir.follow (first ++ rest) = (dir.follow first).follow rest := by
  obtain ⟨cs, hcs⟩ := List.getLast?_eq_some_iff.1 h
  obtain rfl : first = String.ofList cs ++ "/" := String.toList_inj.1 (by simp [hcs])
  rw [follow_append_slash, follow_slash]

/-- Lexical normalisation leaves the names of a path. -/
theorem Normalises.exists_path {pieces names : List String} (h : Normalises pieces names) :
    ∃ p : FilePath, names = p.components := by
  induction h with
  | nil => exact ⟨root, rfl⟩
  | stay _ _ ih => exact ih
  | up _ ih =>
    obtain ⟨p, rfl⟩ := ih
    exact ⟨p.parent, rfl⟩
  | name _ hname ih =>
    obtain ⟨p, rfl⟩ := ih
    exact ⟨p.enter _, (components_enter hname).symm⟩

/-- A text in normal form ends in a name, unless it is a slash. -/
theorem IsNormal.getLast?_ne {text : String} (h : IsNormal text) :
    text = "/" ∨ text.toList.getLast? ≠ some '/' := by
  obtain hroot | ⟨names, hne, hnames, htext⟩ := h
  · exact Or.inl hroot
  · refine Or.inr fun hlast => ?_
    obtain ⟨before, name, rfl⟩ := (List.eq_nil_or_concat' names).resolve_left hne
    obtain ⟨hempty, -, -, hslash⟩ := hnames name (by simp)
    rw [htext, List.flatMap_append, List.flatMap_singleton, List.append_cons,
      List.getLast?_append_of_ne_nil _ (String.toList_eq_nil_iff.not.2 hempty)] at hlast
    exact hslash (List.mem_of_getLast? hlast)

end FilePath

namespace AbsoluteText

open FilePath

/-! ### Components -/

/-- The absolute text with these components. -/
def ofComponents (components : List String) : AbsoluteText :=
  ⟨"/" ++ "/".intercalate components, by simp [FilePath.isAbsolute]⟩

/-- The components of a text, which are its pieces after the first slash. -/
def components (a : AbsoluteText) : List String := (pieces a.text).tail

/-- Before the first slash there is nothing. -/
theorem pieces_text (a : AbsoluteText) : pieces a.text = "" :: a.components := by
  obtain ⟨text, habsolute⟩ := a
  obtain ⟨cs, hcs⟩ : ∃ cs, text.toList = '/' :: cs := by
    simp only [FilePath.isAbsolute, decide_eq_true_eq] at habsolute
    exact List.head?_eq_some_iff.1 habsolute
  have hpieces : pieces text = "" :: (splitSlash cs).map String.ofList := by
    rw [pieces, hcs, splitSlash_slash]
    rfl
  rw [components, hpieces]
  rfl

theorem text_ne_empty (a : AbsoluteText) : a.text ≠ "" := by
  intro h
  have habsolute := a.isAbsolute
  rw [h] at habsolute
  exact absurd habsolute (by decide)

theorem components_ne_nil (a : AbsoluteText) : a.components ≠ [] := by
  intro h
  have htext := intercalate_pieces a.text
  rw [pieces_text, h, String.intercalate_singleton] at htext
  exact a.text_ne_empty htext.symm

/-- **An absolute text** is a slash and its components, with slashes between them. -/
theorem ofComponents_components (a : AbsoluteText) : ofComponents a.components = a := by
  have htext := intercalate_pieces a.text
  rw [pieces_text, String.intercalate_cons_of_ne_nil a.components_ne_nil] at htext
  ext1
  exact htext

theorem not_mem_components {a : AbsoluteText} {c : String} (h : c ∈ a.components) :
    '/' ∉ c.toList :=
  not_mem_pieces (List.mem_of_mem_tail h)

/-- The components of a path in normal form are its names, if there are any. -/
theorem components_absoluteText (p : FilePath) :
    p.absoluteText.components = if p.components = [] then [""] else p.components := by
  rw [AbsoluteText.components, absoluteText, FilePath.pieces_text]
  split <;> rfl

/-- The text of a path is a slash and its names, with slashes between them. -/
theorem ofComponents_names (p : FilePath) : ofComponents p.components = p.absoluteText := by
  rw [← ofComponents_components p.absoluteText, components_absoluteText]
  split
  · rename_i h
    rw [h]
    rfl
  · rfl

/-! ### Normal forms -/

/-- **The normal form** of an absolute text: the path that it leads along. -/
def normalForm (a : AbsoluteText) : FilePath := root.follow a.text

theorem normalForm_eq_foldl (a : AbsoluteText) : a.normalForm = a.components.foldl enter root := by
  rw [normalForm, follow, pieces_text, List.foldl_cons, enter_empty]

/-- From an absolute text, every process finds the directory of its normal form. -/
theorem directory_text (a : AbsoluteText) (env : Environment) :
    env.directory a.text = .ok a.normalForm :=
  Environment.directory_eq_ok_iff.2 ⟨a.text_ne_empty, Or.inl ⟨a.isAbsolute, rfl⟩⟩

/-- **Normalisation** leaves the names of the normal form, and those only. -/
theorem normalises_components {a : AbsoluteText} {names : List String} :
    Normalises a.components names ↔ names = a.normalForm.components := by
  have hslash : ∀ c ∈ a.components, '/' ∉ c.toList := fun c => not_mem_components
  constructor
  · intro h
    obtain ⟨p, rfl⟩ := h.exists_path
    rw [(normalises_iff hslash).1 h, normalForm_eq_foldl]
  · rintro rfl
    exact (normalises_iff hslash).2 a.normalForm_eq_foldl

/-- A path in normal form is its own normal form. -/
theorem normalForm_absoluteText (p : FilePath) : p.absoluteText.normalForm = p := by
  have h := resolve_text root p
  rwa [FilePath.resolve, p.isAbsolute_text, if_pos rfl] at h

/-! ### Resolving -/

theorem isAbsolute_append (a : AbsoluteText) (text : String) :
    FilePath.isAbsolute (a.text ++ text) = true := by
  have h := a.isAbsolute
  simp only [FilePath.isAbsolute, decide_eq_true_eq] at h ⊢
  rw [String.toList_append, List.head?_append, h]
  rfl

/-- **The text of a path below a directory.** An absolute text stands for itself, and any other one
comes after the directory and a slash, of which the directory may have brought its own. -/
def join (dir : AbsoluteText) (text : String) : AbsoluteText :=
  if h : FilePath.isAbsolute text = true then ⟨text, h⟩
  else if dir.text.toList.getLast? = some '/' then ⟨dir.text ++ text, dir.isAbsolute_append text⟩
  else ⟨dir.text ++ "/" ++ text, by
    rw [String.append_assoc]
    exact dir.isAbsolute_append ("/" ++ text)⟩

/-- **Resolving a text below a directory**: the normal form of the two joined. -/
def resolve (dir : AbsoluteText) (text : String) : FilePath := (dir.join text).normalForm

/-- **The directory counts only by where it leads.** -/
theorem resolve_eq (dir : AbsoluteText) (text : String) :
    dir.resolve text = dir.normalForm.resolve text := by
  rw [resolve, join, FilePath.resolve]
  split
  · rfl
  · -- the directory has brought its slash, or it gets one
    split
    · rename_i hslash
      exact follow_append_of_getLast? hslash root text
    · exact follow_append_slash root dir.text text

/-- **The directory of a path**, from its text alone: the components before the last one. -/
def directory (a : AbsoluteText) : AbsoluteText := ofComponents a.components.dropLast

/-- The directory of a path in normal form is in normal form. -/
theorem directory_absoluteText (p : FilePath) :
    p.absoluteText.directory = p.parent.absoluteText := by
  rw [directory, components_absoluteText, ← ofComponents_names, parent]
  split
  · rename_i h
    show ofComponents [""].dropLast = ofComponents p.components.dropLast
    rw [h]
    rfl
  · rfl

/-- **Lexical normalisation is a canonical form that composes.** An absolute text is a slash and its
components, which hold no slash. From left to right, normalisation leaves some names of these, and
the text of the normal form is a slash and the names; it is a normal text, has no slash at its end
unless it is one, and is its own normal form. Below a directory, in any spelling, a text resolves to
what it resolves to below the normal form of the directory, and what it has resolved to resolves to
itself, below any other directory as well. So the file that an include text is found to name is the
one that is read, after its path was resolved again. And the directory of a path in normal form is
in normal form. -/
theorem normalForm_canonical :
    (∀ a : AbsoluteText,
      (a = ofComponents a.components ∧ ∀ c ∈ a.components, '/' ∉ c.toList) ∧
      (∀ env : Environment, env.directory a.text = .ok a.normalForm) ∧
      (∃ names, Normalises a.components names) ∧
      (∀ names, Normalises a.components names →
        a.normalForm.text = "/" ++ "/".intercalate names) ∧
      (IsNormal a.normalForm.text ∧
        (a.normalForm.text = "/" ∨ a.normalForm.text.toList.getLast? ≠ some '/')) ∧
      a.normalForm.absoluteText.normalForm = a.normalForm) ∧
    (∀ (a b : AbsoluteText) (text : String),
      a.resolve text = a.normalForm.resolve text ∧
      a.resolve text = a.normalForm.absoluteText.resolve text ∧
      b.resolve (a.resolve text).text = a.resolve text) ∧
    (∀ (scope : Scope) (text : String),
      scope.file.absoluteText.directory.resolve text = scope.target text ∧
      scope.file.absoluteText.directory.resolve (scope.target text).text = scope.target text) ∧
    ∀ p : FilePath,
      p.absoluteText.directory.text = p.parent.text ∧ IsNormal p.absoluteText.directory.text := by
  refine ⟨fun a => ⟨?_, a.directory_text, ?_, ?_, ?_, ?_⟩, fun a b text => ⟨?_, ?_, ?_⟩,
    fun scope text => ⟨?_, ?_⟩, fun p => ⟨?_, ?_⟩⟩
  · exact ⟨a.ofComponents_components.symm, fun c => not_mem_components⟩
  · exact ⟨_, normalises_components.2 rfl⟩
  · intro names h
    obtain rfl := normalises_components.1 h
    exact congrArg AbsoluteText.text (ofComponents_names a.normalForm).symm
  · exact ⟨isNormal_text _, (isNormal_text _).getLast?_ne⟩
  · exact normalForm_absoluteText _
  · exact a.resolve_eq text
  · rw [resolve_eq, resolve_eq, normalForm_absoluteText]
  · rw [resolve_eq b, resolve_text]
  · rw [resolve_eq, directory_absoluteText, normalForm_absoluteText, Scope.target]
  · rw [resolve_eq, resolve_text]
  · rw [directory_absoluteText, absoluteText]
  · rw [directory_absoluteText]
    exact isNormal_text _

/-- A directory in an odd spelling, and a text that climbs above it and above the root. -/
theorem normalForm_of_odd_spelling :
    ∃ a b : AbsoluteText, a.text = "/x//../a/./b/.." ∧ b.text = "/d/" ∧
      Normalises a.components ["a"] ∧ a.normalForm.text = "/a" ∧
      (a.normalForm.absoluteText.resolve "../../c/").text = "/c" ∧
      a.resolve "../../c/" = a.normalForm.absoluteText.resolve "../../c/" ∧
      b.resolve (a.resolve "../../c/").text = a.resolve "../../c/" := by
  let a : AbsoluteText := ⟨"/x//../a/./b/..", by decide⟩
  let b : AbsoluteText := ⟨"/d/", by decide⟩
  have hnames : Normalises a.components ["a"] := normalises_components.2 (by decide)
  obtain ⟨hforms, hresolve, -⟩ := normalForm_canonical
  obtain ⟨-, -, -, htext, -⟩ := hforms a
  obtain ⟨-, hspelling, hagain⟩ := hresolve a b "../../c/"
  exact ⟨a, b, rfl, rfl, hnames, htext _ hnames, by decide, hspelling, hagain⟩

end AbsoluteText

end ConfigTree
