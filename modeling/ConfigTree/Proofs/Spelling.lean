import ConfigTree.MemoryFiles
import ConfigTree.Proofs.Blame
import ConfigTree.Proofs.Correspondence

/-!
# Spellings of paths

A file is known by its path in lexical normal form, and no load depends on how a path was spelled.
The normal form of a path goes from left to right through the pieces between its slashes, those of
the directory first if it is relative (`ConfigTree.FilePath.Normalises`,
`ConfigTree.Environment.IsNormalForm`). A load of the normal form, from any directory, shows what a
load of the path shows. And include members may spell the files that they name in any way that
comes to the same from the directory of the file that they stand in (`ConfigTree.Document.Spells`):
such documents correspond, so that all that is seen of a load is the same. What is seen are paths in
normal form only (`ConfigTree.load_ignores_spelling`).
-/

namespace ConfigTree

/-! ### Normal forms -/

namespace FilePath

/-- **Lexical normalisation**: these pieces of a path, from left to right, lead from the root along
these names. An empty piece and a dot lead nowhere, and two dots lead back by one name, if there is
one. -/
inductive Normalises : List String → List String → Prop
  | nil : Normalises [] []
  | stay {pieces names : List String} {piece : String} : Normalises pieces names →
      piece = "" ∨ piece = "." → Normalises (pieces ++ [piece]) names
  | up {pieces names : List String} : Normalises pieces names →
      Normalises (pieces ++ [".."]) names.dropLast
  | name {pieces names : List String} {name : String} : Normalises pieces names →
      IsFileName name → Normalises (pieces ++ [name]) (names ++ [name])

/-- **A text of an absolute path in normal form**: a slash, or names with a slash before each. -/
def IsNormal (text : String) : Prop :=
  text = "/" ∨ ∃ names : List String, names ≠ [] ∧ (∀ name ∈ names, IsFileName name) ∧
    text.toList = names.flatMap fun name => '/' :: name.toList

theorem isNormal_text (p : FilePath) : IsNormal p.text := by
  by_cases h : p.components = []
  · exact Or.inl (by rw [text, chars, if_pos h])
  · refine Or.inr ⟨p.components, h, p.areNames, ?_⟩
    rw [text, String.toList_ofList, chars, if_neg h]

theorem not_mem_splitSlash {cs piece : List Char} (h : piece ∈ splitSlash cs) : '/' ∉ piece := by
  induction cs generalizing piece with
  | nil =>
    rw [splitSlash, List.mem_singleton] at h
    simp [h]
  | cons c cs ih =>
    rw [splitSlash] at h
    split at h
    · rcases List.mem_cons.1 h with rfl | h
      · exact List.not_mem_nil
      · exact ih h
    · rename_i hc
      -- the character joins the first of the other pieces
      split at h
      · rename_i hnil
        exact absurd hnil (splitSlash_ne_nil cs)
      · rename_i first rest hcons
        rcases List.mem_cons.1 h with rfl | h
        · have hfirst : '/' ∉ first := ih (hcons ▸ List.mem_cons_self)
          simp [hfirst, Ne.symm hc]
        · exact ih (hcons ▸ List.mem_cons_of_mem _ h)

theorem not_mem_pieces {text piece : String} (h : piece ∈ pieces text) : '/' ∉ piece.toList := by
  obtain ⟨cs, hcs, rfl⟩ := List.mem_map.1 h
  rw [String.toList_ofList]
  exact not_mem_splitSlash hcs

/-- Following pieces without slashes from the root is lexical normalisation. -/
theorem normalises_iff {pieces : List String} (h : ∀ piece ∈ pieces, '/' ∉ piece.toList)
    {p : FilePath} : Normalises pieces p.components ↔ p = pieces.foldl enter root := by
  have hforward {names : List String} (hnormal : Normalises pieces names) :
      names = (pieces.foldl enter root).components := by
    induction hnormal with
    | nil => rfl
    | stay _ hpiece ih =>
      rw [ih fun piece hmem => h piece (List.mem_append_left _ hmem), List.foldl_concat]
      rcases hpiece with rfl | rfl <;> simp [enter, IsFileName]
    | up _ ih =>
      rw [ih fun piece hmem => h piece (List.mem_append_left _ hmem), List.foldl_concat]
      rfl
    | name _ hname ih =>
      rw [ih fun piece hmem => h piece (List.mem_append_left _ hmem), List.foldl_concat,
        components_enter hname]
  refine ⟨fun hnormal => ext (hforward hnormal), ?_⟩
  rintro rfl
  clear hforward
  induction pieces using List.reverseRecOn with
  | nil => exact .nil
  | append_singleton pieces piece ih =>
    have hbefore := ih fun other hmem => h other (List.mem_append_left _ hmem)
    rw [List.foldl_concat]
    -- a piece without a slash is empty, a dot, two dots or a name
    by_cases hup : piece = ".."
    · subst hup
      exact .up hbefore
    · by_cases hname : IsFileName piece
      · rw [components_enter hname]
        exact .name hbefore hname
      · rw [enter, if_neg hup, dif_neg hname]
        refine .stay hbefore ?_
        by_contra hstay
        rw [not_or] at hstay
        exact hname ⟨hstay.1, hstay.2, hup, h piece (by simp)⟩

/-- A path is what its names lead to. -/
theorem foldl_enter_components (p : FilePath) : p.components.foldl enter root = p :=
  ext (by rw [components_foldl_enter p.areNames, root, List.nil_append])

end FilePath

namespace Environment

/-- **The pieces of a path made absolute** against a directory, and that against the working
directory of the process. -/
inductive AbsolutePieces (env : Environment) (cwd path : String) : List String → Prop
  | path : FilePath.isAbsolute path = true → AbsolutePieces env cwd path (FilePath.pieces path)
  | directory : FilePath.isAbsolute path = false → FilePath.isAbsolute cwd = true →
      AbsolutePieces env cwd path (FilePath.pieces cwd ++ FilePath.pieces path)
  | here {here : FilePath} : FilePath.isAbsolute path = false → FilePath.isAbsolute cwd = false →
      env.workingDirectory = .ok here →
      AbsolutePieces env cwd path
        (here.components ++ FilePath.pieces cwd ++ FilePath.pieces path)

/-- **The lexical normal form** of a path made absolute against a directory. -/
def IsNormalForm (env : Environment) (cwd path : String) (p : FilePath) : Prop :=
  ∃ pieces, env.AbsolutePieces cwd path pieces ∧ FilePath.Normalises pieces p.components

/-- **A text from which a directory is found**: it is not empty, and if it is relative the process
has a working directory. -/
def Locates (env : Environment) (cwd : String) : Prop :=
  cwd ≠ "" ∧ (FilePath.isAbsolute cwd = true ∨ ∃ here, env.workingDirectory = .ok here)

variable {env : Environment} {cwd path : String} {dir : FilePath}

theorem Locates.exists_directory (h : env.Locates cwd) : ∃ dir, env.directory cwd = .ok dir :=
  env.exists_directory h.1 h.2

theorem directory_eq_ok_iff : env.directory cwd = .ok dir ↔ cwd ≠ "" ∧
    (FilePath.isAbsolute cwd = true ∧ dir = FilePath.root.follow cwd ∨
      FilePath.isAbsolute cwd = false ∧
        ∃ here, env.workingDirectory = .ok here ∧ dir = here.follow cwd) := by
  rw [directory]
  split
  · simp [*]
  · split
    · simp [*, eq_comm]
    · rcases env.workingDirectory with e | here <;> simp [*, Except.map, eq_comm]

/-- The pieces of a path made absolute lead to what the path names from the directory. -/
theorem AbsolutePieces.foldl_eq {pieces : List String} (hdir : env.directory cwd = .ok dir)
    (h : env.AbsolutePieces cwd path pieces) :
    (∀ piece ∈ pieces, '/' ∉ piece.toList) ∧
      pieces.foldl FilePath.enter .root = dir.resolve path := by
  obtain ⟨-, hcwd⟩ := directory_eq_ok_iff.1 hdir
  cases h with
  | path hpath =>
    refine ⟨fun piece => FilePath.not_mem_pieces, ?_⟩
    rw [FilePath.resolve, if_pos hpath, FilePath.follow]
  | directory hpath habsolute =>
    obtain ⟨-, rfl⟩ | ⟨hrelative, -⟩ := hcwd
    · refine ⟨fun piece hmem => ?_, ?_⟩
      · exact (List.mem_append.1 hmem).elim FilePath.not_mem_pieces FilePath.not_mem_pieces
      · rw [FilePath.resolve, hpath, if_neg Bool.false_ne_true, List.foldl_append]
        rfl
    · cases habsolute.symm.trans hrelative
  | @here here hpath hrelative hhere =>
    obtain ⟨habsolute, -⟩ | ⟨-, here', hhere', rfl⟩ := hcwd
    · cases habsolute.symm.trans hrelative
    · obtain rfl : here = here' := Except.ok.inj (hhere.symm.trans hhere')
      refine ⟨fun piece hmem => ?_, ?_⟩
      · rcases List.mem_append.1 hmem with hmem | hmem
        · rcases List.mem_append.1 hmem with hmem | hmem
          · exact (here.areNames piece hmem).2.2.2
          · exact FilePath.not_mem_pieces hmem
        · exact FilePath.not_mem_pieces hmem
      · rw [FilePath.resolve, hpath, if_neg Bool.false_ne_true, List.foldl_append,
          List.foldl_append, FilePath.foldl_enter_components]
        rfl

/-- **What a path names** from a directory is its lexical normal form. -/
theorem isNormalForm_iff {p : FilePath} (hdir : env.directory cwd = .ok dir) :
    env.IsNormalForm cwd path p ↔ p = dir.resolve path := by
  constructor
  · rintro ⟨pieces, hpieces, hnormal⟩
    obtain ⟨hslash, hfoldl⟩ := hpieces.foldl_eq hdir
    rw [(FilePath.normalises_iff hslash).1 hnormal, hfoldl]
  · rintro rfl
    obtain ⟨pieces, hpieces⟩ : ∃ pieces, env.AbsolutePieces cwd path pieces := by
      rcases hpath : FilePath.isAbsolute path with _ | _
      · obtain ⟨-, ⟨habsolute, -⟩ | ⟨hrelative, here, hhere, -⟩⟩ := directory_eq_ok_iff.1 hdir
        · exact ⟨_, .directory hpath habsolute⟩
        · exact ⟨_, .here hpath hrelative hhere⟩
      · exact ⟨_, .path hpath⟩
    obtain ⟨hslash, hfoldl⟩ := hpieces.foldl_eq hdir
    exact ⟨pieces, hpieces, (FilePath.normalises_iff hslash).2 hfoldl.symm⟩

end Environment

/-! ### Spellings of include members -/

/-- **A text in another spelling**: both texts name the same file from this directory. -/
inductive Directive.SpellsText (dir : FilePath) : Document → Document → Prop
  | same (d : Document) : SpellsText dir d d
  | text {text text' : String} : text ≠ "" → text' ≠ "" → dir.resolve text = dir.resolve text' →
      SpellsText dir (.scalar (.string text)) (.scalar (.string text'))

/-- **An include value in another spelling**: of its one text, or of some texts in its list. -/
inductive Directive.SpellsValue (dir : FilePath) : Document → Document → Prop
  | single {value value' : Document} : SpellsText dir value value' →
      SpellsValue dir value value'
  | list {items items' : List Document} : List.Forall₂ (SpellsText dir) items items' →
      SpellsValue dir (.array items) (.array items')

/-- Members that are spelled one by one: an include member may be spelled in another way, another
one has a related value. -/
inductive SpelledMember (dir : FilePath) (D : Document → Document → Prop) :
    String × Document → String × Document → Prop
  | included {value value' : Document} : Directive.SpellsValue dir value value' →
      SpelledMember dir D (Directive.includeKey, value) (Directive.includeKey, value')
  | other {key : String} {value value' : Document} : key ≠ Directive.includeKey → D value value' →
      SpelledMember dir D (key, value) (key, value')

/-- **A document in which files are spelled in another way**, as seen from this directory, in the
include members of some objects. -/
inductive Document.Spells (dir : FilePath) : Document → Document → Prop
  | scalar (s : Scalar) : Spells dir (.scalar s) (.scalar s)
  | array {items items' : List Document} : List.Forall₂ (Spells dir) items items' →
      Spells dir (.array items) (.array items')
  | object {members members' : Members Document} :
      List.Forall₂ (SpelledMember dir (Spells dir)) members members' →
      Spells dir (.object members) (.object members')

/-- A document may also be spelled in the same way. -/
theorem Document.Spells.refl (dir : FilePath) (d : Document) : Spells dir d d := by
  induction d using Document.induction with
  | scalar s => exact .scalar s
  | array items ih => exact .array (List.forall₂_same.2 ih)
  | object members ih =>
    refine .object (List.forall₂_same.2 fun member hmember => ?_)
    obtain ⟨key, value⟩ := member
    by_cases hkey : key = Directive.includeKey
    · rw [hkey]
      exact .included (.single (.same value))
    · exact .other hkey (ih _ hmember)

namespace Directive

variable {file : FilePath} {value value' : Document} {items items' : List Document}

/-- In a list, spelled texts name the same files in the same places. -/
theorem forall₂_texts (h : List.Forall₂ (SpellsText file.parent) items items') :
    List.Forall₂ (fun text text' => file.parent.resolve text = file.parent.resolve text')
      (includedTexts (.array items)) (includedTexts (.array items')) := by
  simp only [includedTexts]
  induction h with
  | nil => exact .nil
  | @cons item _ _ _ hitem _ ih =>
    cases hitem with
    | same =>
      rcases htext : string? item with _ | text
      · simpa only [List.filterMap_cons, htext] using ih
      · simp only [List.filterMap_cons, htext, List.filter_cons]
        split
        · exact .cons rfl ih
        · exact ih
    | text hne hne' heq =>
      simp only [List.filterMap_cons, string?, List.filter_cons, hne, hne', ne_eq,
        not_false_eq_true, decide_true, if_true]
      exact .cons heq ih

/-- Spelled texts are not ignored, and other items are the same. -/
theorem ignoredItems_eq (h : List.Forall₂ (SpellsText file.parent) items items') :
    ignoredItems (.array items) = ignoredItems (.array items') := by
  simp only [ignoredItems]
  induction h with
  | nil => rfl
  | cons hitem _ ih =>
    cases hitem with
    | same d => simp only [List.filter_cons, ih]
    | text _ _ _ => simpa [List.filter_cons, string?] using ih

/-- **Spelled include values do the same.** -/
theorem SpellsValue.sameIncludes (h : SpellsValue file.parent value value') :
    SameIncludes file value value' := by
  cases h with
  | single htext =>
    cases htext with
    | same => exact .refl file value
    | text hne hne' heq =>
      refine ⟨?_, fun scope _ => ?_⟩
      · simpa [includedTexts, string?, hne, hne'] using heq
      · simp [Load.reported, ignoredItems, isUnsupported, includedTexts, string?, hne, hne']
  | list hitems =>
    have htargets := forall₂_texts hitems
    refine ⟨htargets, fun scope _ => ?_⟩
    rw [Load.reported, Load.reported, ignoredItems_eq hitems, htargets.length_eq]
    rfl

end Directive

section Members

variable {file : FilePath} {D : Document → Document → Prop} {members members' : Members Document}
  (h : List.Forall₂ (SpelledMember file.parent D) members members')

include h

theorem rel_included_of_spelled : Option.Rel (SameIncludes file)
    (members.get? Directive.includeKey) (members'.get? Directive.includeKey) := by
  induction h with
  | nil => exact .none
  | cons hmember _ ih =>
    cases hmember with
    | included hvalue =>
      rw [Members.get?_cons, Members.get?_cons, if_pos rfl, if_pos rfl]
      exact .some hvalue.sameIncludes
    | other hkey _ => rwa [Members.get?_cons, Members.get?_cons, if_neg hkey, if_neg hkey]

theorem rel_block_of_spelled : Option.Rel D
    (members.get? Directive.publicKey) (members'.get? Directive.publicKey) := by
  induction h with
  | nil => exact .none
  | cons hmember _ ih =>
    cases hmember with
    | included _ =>
      have hkey : Directive.includeKey ≠ Directive.publicKey := by decide
      rwa [Members.get?_cons, Members.get?_cons, if_neg hkey, if_neg hkey]
    | @other key _ _ _ hvalue =>
      rw [Members.get?_cons, Members.get?_cons]
      split
      · exact .some hvalue
      · exact ih

theorem forall₂_ordinary_of_spelled :
    List.Forall₂ (fun member member' => member.1 = member'.1 ∧ D member.2 member'.2)
      (Directive.ordinary members) (Directive.ordinary members') := by
  induction h with
  | nil => exact .nil
  | cons hmember _ ih =>
    cases hmember with
    | included _ =>
      rwa [Directive.ordinary_cons_directive (Or.inl rfl),
        Directive.ordinary_cons_directive (Or.inl rfl)]
    | @other key _ _ hinclude hvalue =>
      by_cases hpublic : key = Directive.publicKey
      · rwa [Directive.ordinary_cons_directive (Or.inr hpublic),
          Directive.ordinary_cons_directive (Or.inr hpublic)]
      · rw [Directive.ordinary_cons hinclude hpublic, Directive.ordinary_cons hinclude hpublic]
        exact .cons ⟨rfl, hvalue⟩ ih

end Members

/-- **Documents with other spellings correspond**, each seen from the directory of its file. -/
theorem correspondence_spells : Correspondence id fun file => Document.Spells file.parent where
  scalar h := by
    cases h
    exact ⟨_, rfl, rfl⟩
  array h := by
    cases h with
    | array hitems => exact ⟨_, rfl, hitems⟩
  object h := by
    cases h with
    | object hmembers =>
      exact ⟨_, rfl, rel_included_of_spelled hmembers, rel_block_of_spelled hmembers,
        forall₂_ordinary_of_spelled hmembers⟩

/-! ### Loads -/

/-- The texts of the paths that an error names. -/
def LoadError.pathTexts : LoadError → List String
  | .missingPath => []
  | .unusableDirectory dir _ => [dir]
  | .readFailed path _ | .parseFailed path _ | .invalidRoot path => [path.text]
  | .cycle path chain => path.text :: chain.map FilePath.text
  | .invalidPublicBlock file _ | .keyCollision file _ _ => [file.text]

/-- The texts of all paths in a report: those that were asked for, and those of the files of the
configuration or of the error. -/
def Report.pathTexts (report : Report) : List String :=
  report.reads.map FilePath.text ++ match report.outcome with
    | .ok loaded => loaded.files.map FilePath.text
    | .error e => e.pathTexts

/-- An error names paths in normal form, unless it is about the directory to start from. -/
theorem LoadError.isNormal_of_mem_pathTexts {e : LoadError}
    (h : ∀ dir cause, e ≠ .unusableDirectory dir cause) :
    ∀ text ∈ e.pathTexts, FilePath.IsNormal text := by
  rcases e with _ | ⟨dir, cause⟩ | _ | _ | _ | _ | _ | _
  case unusableDirectory => exact absurd rfl (h dir cause)
  all_goals simp [pathTexts, FilePath.isNormal_text]

/-- **How a path is spelled does not matter.** A path has a lexical normal form, whose load from any
directory shows the same as its own. A source whose documents differ from those of another only in
the spelling of the files that they include gives loads that show the same. And all paths that a
load shows are absolute and in normal form, but for a directory that it cannot start from. -/
theorem load_ignores_spelling (env : Environment) :
    (∀ cwd path, env.Locates cwd → path ≠ "" → (∃ p, env.IsNormalForm cwd path p) ∧
      ∀ p, env.IsNormalForm cwd path p → ∀ cwd', env.Locates cwd' →
        load env cwd path = load env cwd' p.text) ∧
    (∀ other : Source, env.source.Corresponds (fun file => Document.Spells file.parent) other →
      ∀ cwd path, load env cwd path = load { env with source := other } cwd path) ∧
    ∀ cwd path, ∀ text ∈ (load env cwd path).pathTexts,
      FilePath.IsNormal text ∨ ¬env.Locates cwd ∧ text = cwd := by
  refine ⟨fun cwd path hcwd hpath => ?_, fun other hother cwd path =>
    (load_corresponds correspondence_spells hother cwd path).eq, fun cwd path text htext => ?_⟩
  · obtain ⟨dir, hdir⟩ := hcwd.exists_directory
    refine ⟨⟨_, (Environment.isNormalForm_iff hdir).2 rfl⟩, fun p hp cwd' hcwd' => ?_⟩
    obtain rfl := (Environment.isNormalForm_iff hdir).1 hp
    obtain ⟨dir', hdir'⟩ := hcwd'.exists_directory
    -- both loads begin with the same root file
    rw [load, load, if_neg hpath, if_neg (FilePath.text_ne_empty _), hdir, hdir']
    dsimp only
    rw [FilePath.resolve_text]
  · rcases List.mem_append.1 htext with hread | htext
    · obtain ⟨p, -, rfl⟩ := List.mem_map.1 hread
      exact Or.inl p.isNormal_text
    · rcases houtcome : (load env cwd path).outcome with e | loaded <;> rw [houtcome] at htext
      · rcases load_eq_error_iff.1 houtcome with ⟨-, rfl⟩ | ⟨-, cause, hcause, rfl⟩ | ⟨-, dir, -, h⟩
        · exact absurd htext List.not_mem_nil
        · refine Or.inr ⟨fun hcwd => ?_, List.mem_singleton.1 htext⟩
          obtain ⟨dir, hdir⟩ := hcwd.exists_directory
          cases hdir.symm.trans hcause
        · refine Or.inl (LoadError.isNormal_of_mem_pathTexts ?_ text htext)
          rintro dir' cause rfl
          obtain ⟨file, -, hfile⟩ := Source.blames_of_expandRoot (by simp) h
          cases hfile.file?_eq
      · obtain ⟨p, -, rfl⟩ := List.mem_map.1 htext
        exact Or.inl p.isNormal_text

/-- A file that includes another one by this text. -/
def spelledFiles (text : String) : MemoryFiles := .ofDocuments
  [("/a", .object [("#include", .scalar (.string text))]),
    ("/b", .object [("k", .scalar (.bool true))])]

theorem load_spelledFiles :
    ∃ loaded, (load (spelledFiles "b").environment "/" "x//../a").outcome = .ok loaded ∧
      loaded.config = .object [("k", .scalar (.bool true))] := by
  let members : Members Document := [("#include", .scalar (.string "b"))]
  let tree : Members (Bool × Marked) := [("k", false, .scalar (.bool true))]
  let root := FilePath.root.resolve "a"
  have hroot : FilePath.root.resolve "x//../a" = root := FilePath.ext (by decide)
  have hholds : (spelledFiles "b").source.Holds root members := ⟨_, rfl, by cbv⟩
  have htarget : (Scope.top root).target "b" = FilePath.root.resolve "b" := by cbv
  have hincluded : (spelledFiles "b").source.Included (.top root) "b" tree := by
    rw [Source.Included, htarget]
    exact ⟨by decide, [("k", .scalar (.bool true))], ⟨_, rfl, by cbv⟩, by cbv⟩
  have htree : (spelledFiles "b").source.objectTree (.top root) members = .ok tree :=
    Source.objectTree_eq_ok_iff.2 ⟨[tree], [], [], .cons hincluded .nil,
      Source.blockTree_eq_ok_iff.2 (Or.inl ⟨rfl, rfl⟩), List.nodup_nil, .nil, rfl⟩
  rw [← hroot] at hholds htree
  exact ⟨_, load_eq_ok_iff.2 ⟨by decide, .root, by cbv, members, tree, hholds, htree, rfl⟩, rfl⟩

/-- With the include member in another spelling, the files correspond. -/
theorem spelledFiles_corresponds :
    (spelledFiles "b").source.Corresponds (fun file => Document.Spells file.parent)
      (spelledFiles "./b/").source := by
  let first (text : String) : Document := .object [("#include", .scalar (.string text))]
  let second : Document := .object [("k", .scalar (.bool true))]
  have hget (text : String) (path : FilePath) : (spelledFiles text).get? path.text =
      if "/a" = path.text then some ⟨.texts [(first text).compact], 0⟩
      else if "/b" = path.text then some ⟨.texts [second.compact], 0⟩ else none := rfl
  intro path
  by_cases hfirst : "/a" = path.text
  · obtain rfl : FilePath.root.resolve "a" = path := FilePath.text_injective (by
      rw [← hfirst]
      decide)
    rw [Source.document_eq_ok_iff.2 ⟨_, rfl, (by cbv : Document.parse _ = .ok (first "b"))⟩,
      Source.document_eq_ok_iff.2 ⟨_, rfl, (by cbv : Document.parse _ = .ok (first "./b/"))⟩]
    exact .ok (.object (.cons (.included (.single (.text (by decide) (by decide) (by cbv))))
      .nil))
  by_cases hsecond : "/b" = path.text
  · obtain rfl : FilePath.root.resolve "b" = path := FilePath.text_injective (by
      rw [← hsecond]
      decide)
    have hsame (text : String) :
        (spelledFiles text).source.document (FilePath.root.resolve "b") = .ok second :=
      Source.document_eq_ok_iff.2 ⟨_, rfl, by cbv⟩
    rw [hsame, hsame]
    exact .ok (.refl _ _)
  · rw [Source.document, Source.document, MemoryFiles.answer_source, MemoryFiles.answer_source,
      hget, hget, if_neg hfirst, if_neg hsecond, if_neg hfirst]
    exact .error _

/-- A root file in another spelling, with an include member in another spelling: both loads give the
configuration of the file that is included. -/
theorem load_of_respelled_include :
    ∃ loaded, (load (spelledFiles "b").environment "/" "x//../a").outcome = .ok loaded ∧
      loaded.config = .object [("k", .scalar (.bool true))] ∧
      load (spelledFiles "b").environment "/" "x//../a" =
        load (spelledFiles "./b/").environment "/c" "/a" := by
  have hdir : (spelledFiles "b").environment.directory "/" = .ok .root := by cbv
  have hcwd (cwd : String) (hne : cwd ≠ "") : (spelledFiles "b").environment.Locates cwd :=
    ⟨hne, Or.inr ⟨.root, rfl⟩⟩
  obtain ⟨hforms, hspelled, -⟩ := load_ignores_spelling (spelledFiles "b").environment
  obtain ⟨-, hform⟩ := hforms "/" "x//../a" (hcwd _ (by decide)) (by decide)
  have hnormal : (spelledFiles "b").environment.IsNormalForm "/" "x//../a"
      (FilePath.root.resolve "a") :=
    (Environment.isNormalForm_iff hdir).2 (FilePath.ext (by decide))
  obtain ⟨loaded, hloaded, hconfig⟩ := load_spelledFiles
  refine ⟨loaded, hloaded, hconfig, (hform _ hnormal "/c" (hcwd _ (by decide))).trans ?_⟩
  rw [show (FilePath.root.resolve "a").text = "/a" by decide]
  exact hspelled (spelledFiles "./b/").source spelledFiles_corresponds "/c" "/a"

end ConfigTree
