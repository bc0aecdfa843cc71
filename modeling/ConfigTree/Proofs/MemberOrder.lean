import ConfigTree.MemoryFiles
import ConfigTree.Proofs.Blame
import ConfigTree.Proofs.Coupling
import ConfigTree.Proofs.Reordering
import ConfigTree.Proofs.Transfer
import ConfigTree.Proofs.Walk

/-!
# Member order carries no meaning

Of two sources whose files differ only in the order of the members of objects
(`ConfigTree.Source.DiffersInOrder`), loads succeed alike, and then their configurations and their
public subsets differ only in this order, and their public paths and files in the order in which
they are listed (`ConfigTree.load_ignores_member_order`).

The two loads may read different files first and fail with different errors, so they cannot be
followed step by step. What is compared are the trees: where a document has a tree, every
reordering of it has one, which is reordered in the same way
(`ConfigTree.Source.Reorders.exists_tree`). The files of a load are those that the root file
reaches, and what a file reaches does not depend on any order either
(`ConfigTree.Source.Reorders.reaches`).
-/

namespace ConfigTree

open Document Relation

/-- **Sources that differ only in member order**: under every path their first answers are the same,
or texts of documents that are equal up to the order of the members of objects. -/
def Source.DiffersInOrder (source other : Source) : Prop :=
  ∀ path, source.answer path 0 = other.answer path 0 ∨
    ∃ text text' d d', source.answer path 0 = .ok text ∧ other.answer path 0 = .ok text' ∧
      Document.parse text = .ok d ∧ Document.parse text' = .ok d' ∧ Reordered d d'

/-! ### Directives -/

namespace Directive

theorem string?_of_reordered {d d' : Document} (h : Reordered d d') : string? d = string? d' := by
  cases h <;> rfl

/-- Reordered values of include members name the same files in the same order. -/
theorem includedTexts_of_reordered {value value' : Document} (h : Reordered value value') :
    includedTexts value = includedTexts value' := by
  cases h with
  | scalar s => rfl
  | object => rfl
  | @array items items' hitems =>
    have hstrings : items.filterMap string? = items'.filterMap string? := by
      induction hitems with
      | nil => rfl
      | cons hitem _ ih =>
        rw [List.filterMap_cons, List.filterMap_cons, string?_of_reordered hitem, ih]
    exact congrArg (List.filter (· ≠ "")) hstrings

theorem texts_of_permutes {members members' : Members Document}
    (h : Members.Permutes Reordered members members') (hdistinct : members.Distinct) :
    texts members = texts members' := by
  have hrel := h.get? hdistinct includeKey
  rw [texts, texts]
  generalize members.get? includeKey = value at hrel ⊢
  generalize members'.get? includeKey = value' at hrel ⊢
  cases hrel with
  | none => rfl
  | some hvalue => exact includedTexts_of_reordered hvalue

end Directive

/-- A live part of a document is, reordered, a live part of its reordering. -/
theorem Document.Live.exists_reordered {d d' part : Document} (h : Live d part)
    (hd : Reordered d d') (hdistinct : d.Distinct) :
    ∃ part', Live d' part' ∧ Reordered part part' := by
  induction h with
  | root => exact ⟨d', .root, hd⟩
  | @block members part hlive hpart ih =>
    obtain ⟨object', hlive', hobject⟩ := ih
    obtain ⟨members', rfl, hmembers⟩ := hobject.exists_object
    have hrel := hmembers.get? (hlive.distinct hdistinct).1 Directive.publicKey
    rw [hpart] at hrel
    generalize hpart' : Members.get? members' Directive.publicKey = found at hrel
    cases hrel with
    | some hsame => exact ⟨_, hlive'.block hpart', hsame⟩
  | @member members key part hlive hpart hinclude hpublic ih =>
    obtain ⟨object', hlive', hobject⟩ := ih
    obtain ⟨members', rfl, middle, hmiddle, hperm⟩ := hobject.exists_object
    obtain ⟨member', hmember', hsame⟩ := exists_right_of_forall₂ hmiddle hpart
    obtain ⟨hvalue⟩ := hsame
    exact ⟨_, hlive'.member (hperm.mem_iff.1 hmember') hinclude hpublic, hvalue⟩
  | item hlive hpart ih =>
    obtain ⟨array', hlive', harray⟩ := ih
    obtain ⟨items', rfl, hitems⟩ := harray.exists_array
    obtain ⟨item', hitem', hsame⟩ := exists_right_of_forall₂ hitems hpart
    exact ⟨item', hlive'.item hitem', hsame⟩

namespace Source

variable {source other : Source} {scope : Scope} {members members' : Members Document}

/-- **Reordered sources** give the same error or reordered documents under every path. -/
def Reorders (source other : Source) : Prop :=
  ∀ path, SameOutcome Reordered (source.document path) (other.document path)

/-- Every reordering of the document has a reordered tree in the other source. -/
def Reorderable (source other : Source) (scope : Scope) (d : Document) : Prop :=
  ∀ d' node, Reordered d d' → d.Distinct → source.tree scope d = .ok node →
    ∃ node', other.tree scope d' = .ok node' ∧ Marked.Reordered node node'

theorem DiffersInOrder.reorders (h : source.DiffersInOrder other) : source.Reorders other := by
  intro path
  rcases h path with hanswer | ⟨text, text', d, d', htext, htext', hd, hd', hreordered⟩
  · have hdocument : other.document path = source.document path := by
      rw [document, document, hanswer]
    rw [hdocument]
    rcases source.document path with e | d
    · exact .error e
    · exact .ok (.refl d)
  · rw [document_eq_ok_iff.2 ⟨text, htext, hd⟩, document_eq_ok_iff.2 ⟨text', htext', hd'⟩]
    exact .ok hreordered

namespace Reorders

theorem symm (h : source.Reorders other) : other.Reorders source := by
  intro path
  have hpath := h path
  generalize source.document path = outcome at hpath ⊢
  generalize other.document path = outcome' at hpath ⊢
  cases hpath with
  | ok hd => exact .ok hd.symm
  | error e => exact .error e

/-- What a file holds is held reordered by the other source. -/
theorem exists_holds (h : source.Reorders other) {path : FilePath}
    (hholds : source.Holds path members) :
    ∃ members', other.Holds path members' ∧ Members.Permutes Reordered members members' := by
  have hpath := h path
  rw [holds_iff.1 hholds] at hpath
  generalize hother : other.document path = outcome at hpath
  cases hpath with
  | ok hd =>
    obtain ⟨members', rfl, hmembers⟩ := hd.exists_object
    exact ⟨members', holds_iff.2 hother, hmembers⟩

/-! ### Trees -/

theorem exists_arrayTree {items items' : List Document} {node : Marked}
    (hitems : List.Forall₂ Reordered items items') (hdistinct : (array items).Distinct)
    (hnode : source.tree scope (.array items) = .ok node)
    (hparts : ∀ i item, items[i]? = some item → Reorderable source other (scope.item i) item) :
    ∃ node', other.tree scope (.array items') = .ok node' ∧ Marked.Reordered node node' := by
  rw [Distinct, distinctItems_iff] at hdistinct
  refine Transfers.array hitems (fun i item item' hitem hsame node hnode => ?_) .array node hnode
  exact hparts i item hitem item' node hsame (hdistinct _ (List.mem_of_getElem? hitem)) hnode

/-- **Included files** have reordered trees. -/
theorem exists_included (h : source.Reorders other) {texts : List String}
    {trees : List (Members (Bool × Marked))}
    (htrees : List.Forall₂ (source.Included scope) texts trees)
    (hfiles : ∀ text contents, scope.target text ∉ scope.chain →
      source.Holds (scope.target text) contents →
      Reorderable source other (scope.enter (scope.target text)) (.object contents)) :
    ∃ trees', List.Forall₂ (other.Included scope) texts trees' ∧
      List.Forall₂ (fun tree tree' => Marked.Reordered (.object tree) (.object tree'))
        trees trees' := by
  induction htrees with
  | nil => exact ⟨[], .nil, .nil⟩
  | cons htree _ ih =>
    obtain ⟨trees', htrees', hsame⟩ := ih
    obtain ⟨hnew, contents, hholds, htree⟩ := htree
    obtain ⟨contents', hholds', hcontents⟩ := h.exists_holds hholds
    obtain ⟨node', hnode', hfirst⟩ := hfiles _ contents hnew hholds _ _
      (reordered_object_iff.2 hcontents) hholds.distinct (tree_object_of_eq_ok htree)
    obtain ⟨tree', rfl, htree'⟩ := tree_object_eq_ok_iff.1 hnode'
    exact ⟨tree' :: trees', .cons ⟨hnew, contents', hholds', htree'⟩ htrees', .cons hfirst hsame⟩

/-- **A public block** has a reordered tree. -/
theorem exists_blockTree (hmembers : Members.Permutes Reordered members members')
    (hdistinct : (object members).Distinct) {tree : Members (Bool × Marked)}
    (htree : source.blockTree scope members = .ok tree)
    (hblock : ∀ block, members.get? Directive.publicKey = some (.object block) →
      Reorderable source other scope.inBlock (.object block)) :
    ∃ tree', other.blockTree scope members' = .ok tree' ∧
      Marked.Reordered (.object tree) (.object tree') := by
  refine Transfers.exists_blockTree (hmembers.get? hdistinct.1 Directive.publicKey) htree (.refl _)
    fun contents d' hsome hd => ?_
  obtain ⟨contents', rfl, -⟩ := hd.exists_object
  have hdistinct' := distinctMembers_iff.1 hdistinct.2 _ (Members.mem_of_get? hsome)
  exact ⟨contents', rfl, fun node => hblock contents hsome _ node hd hdistinct'⟩

/-- **Own members** have reordered entries. -/
theorem exists_entries (hmembers : Members.Permutes Reordered members members')
    (hvalues : ∀ member ∈ members, member.2.Distinct) {own : Members (Bool × Marked)}
    (hentries : List.Forall₂ (source.Entry scope) members own)
    (hown : ∀ member ∈ members,
      Reorderable source other (scope.member (Directive.name member.1)) member.2) :
    ∃ own', List.Forall₂ (other.Entry scope) members' own' ∧
      Marked.Reordered (.object own) (.object own') := by
  simp only [Marked.reordered_object_iff]
  refine hmembers.exists_entries hentries fun member hmember member' entry hsame hentry => ?_
  have hparts := hown member hmember
  have hdistinct := hvalues member hmember
  obtain ⟨hvalue⟩ := hsame
  obtain ⟨name, mark, node⟩ := entry
  obtain ⟨rfl, rfl, hnode⟩ := hentry
  obtain ⟨node', hnode', hnodes⟩ := hparts _ _ hvalue hdistinct hnode
  exact ⟨(_, _, node'), ⟨rfl, rfl, hnode'⟩, ⟨⟨hnodes⟩⟩⟩

/-- **An object** has a reordered tree if its parts have. -/
theorem exists_objectTree (h : source.Reorders other)
    (hmembers : Members.Permutes Reordered members members')
    (hdistinct : (object members).Distinct) {tree : Members (Bool × Marked)}
    (htree : source.objectTree scope members = .ok tree)
    (hincluded : ∀ text contents, scope.target text ∉ scope.chain →
      source.Holds (scope.target text) contents →
      Reorderable source other (scope.enter (scope.target text)) (.object contents))
    (hblock : ∀ block, members.get? Directive.publicKey = some (.object block) →
      Reorderable source other scope.inBlock (.object block))
    (hown : ∀ member ∈ Directive.ordinary members,
      Reorderable source other (scope.member (Directive.name member.1)) member.2) :
    ∃ tree', other.objectTree scope members' = .ok tree' ∧
      Marked.Reordered (.object tree) (.object tree') := by
  obtain ⟨trees, block, own, htrees, hpublic, hnames, hentries, rfl⟩ :=
    objectTree_eq_ok_iff.1 htree
  have hordinary : Members.Permutes Reordered (Directive.ordinary members)
      (Directive.ordinary members') := (hmembers.erase _).erase _
  obtain ⟨trees', htrees', hfiles⟩ := h.exists_included htrees hincluded
  obtain ⟨block', hpublic', hblocks⟩ := exists_blockTree hmembers hdistinct hpublic hblock
  obtain ⟨own', hentries', hown'⟩ := exists_entries hordinary (fun member hmember =>
    distinctMembers_iff.1 hdistinct.2 _ (Directive.mem_ordinary.1 hmember).1) hentries hown
  rw [Directive.texts_of_permutes hmembers hdistinct.1] at htrees'
  have hnames' : ((Directive.ordinary members').keys.map Directive.name).Nodup :=
    (hordinary.keys_perm.map _).nodup_iff.1 hnames
  refine ⟨_, objectTree_eq_ok_iff.2
    ⟨trees', block', own', htrees', hpublic', hnames', hentries', rfl⟩, ?_⟩
  -- no layer repeats a key, and merging such layers keeps them reordered
  have hdistincts : ∀ tree ∈ trees, (Marked.object tree).Distinct := fun tree htree => by
    obtain ⟨text, -, hincluded⟩ := exists_left_of_forall₂ htrees htree
    exact hincluded.distinct
  have hbase := Marked.distinct_foldl hdistincts Marked.distinct_nil
  have hlayer := distinct_blockTree hpublic fun _ _ _ hblock =>
    distinct_tree (tree_object_of_eq_ok hblock)
  have hlast := distinct_entries hnames hentries fun _ _ _ => distinct_tree
  simp only [← Marked.merge_object]
  exact ((Marked.reordered_foldl hfiles (.object .nil (.refl _)) hdistincts
    Marked.distinct_nil).merge hblocks hbase hlayer).merge hown' (hbase.merge hlayer) hlast

/-- **Reordered documents have reordered trees**, where one of them has a tree. -/
theorem exists_tree (h : source.Reorders other) (scope : Scope) (d : Document) :
    Reorderable source other scope d := by
  induction scope, d using expansion_induction source with
  | scalar scope s =>
    intro d' node hd _ hnode
    cases hd
    rw [tree_scalar, Except.ok.injEq] at hnode
    exact ⟨_, tree_scalar s, hnode ▸ .scalar s⟩
  | array scope items ih =>
    intro d' node hd hdistinct hnode
    obtain ⟨items', rfl, hitems⟩ := hd.exists_array
    exact exists_arrayTree hitems hdistinct hnode ih
  | object scope members hincluded hblock hown =>
    intro d' node hd hdistinct hnode
    obtain ⟨members', rfl, hmembers⟩ := hd.exists_object
    obtain ⟨tree, rfl, htree⟩ := tree_object_eq_ok_iff.1 hnode
    obtain ⟨tree', htree', hsame⟩ :=
      h.exists_objectTree hmembers hdistinct htree hincluded hblock hown
    exact ⟨_, tree_object_of_eq_ok htree', hsame⟩

/-! ### Files -/

/-- What one file leads to does not depend on any order. -/
theorem edge (h : source.Reorders other) {file target : FilePath}
    (hedge : source.Edge file target) : other.Edge file target := by
  obtain ⟨contents, members, value, text, hholds, hlive, hvalue, hnames, rfl⟩ := hedge
  obtain ⟨contents', hholds', hcontents⟩ := h.exists_holds hholds
  obtain ⟨object', hlive', hobject⟩ :=
    hlive.exists_reordered (reordered_object_iff.2 hcontents) hholds.distinct
  obtain ⟨members', rfl, hmembers⟩ := hobject.exists_object
  have htext := Directive.mem_texts.2 ⟨value, hvalue, hnames⟩
  rw [Directive.texts_of_permutes hmembers (hlive.distinct hholds.distinct).1] at htext
  have hedge : other.Edge (Scope.top file).file ((Scope.top file).target text) :=
    edge_of_mem_texts hholds' hlive' htext
  exact hedge

/-- **What a file reaches** does not depend on any order. -/
theorem reaches (h : source.Reorders other) {root file : FilePath}
    (hreaches : source.Reaches root file) : other.Reaches root file :=
  hreaches.lift id fun _ _ => h.edge

end Reorders

end Source

/-! ### Loads -/

/-- **Configurations that are the same up to order**. -/
structure Loaded.Reordered (loaded loaded' : Loaded) : Prop where
  config : Document.Reordered loaded.config loaded'.config
  publicSubset : Document.Reordered loaded.publicSubset loaded'.publicSubset
  publicPaths : loaded.publicPaths.Perm loaded'.publicPaths
  files : loaded.files.Perm loaded'.files

/-- Reordered trees make configurations that are the same up to order. -/
theorem Marked.Reordered.loaded {tree tree' : Members (Bool × Marked)}
    (h : Marked.Reordered (.object tree) (.object tree')) (hdistinct : (Marked.object tree).Distinct)
    {files files' : List FilePath} (hfiles : files.Perm files') :
    Loaded.Reordered ⟨Marked.plainMembers tree, Marked.memberPaths tree, files⟩
      ⟨Marked.plainMembers tree', Marked.memberPaths tree', files'⟩ := by
  have hconfig := h.plain
  have hsubset := h.subset hdistinct
  have hpaths := h.perm_publicPaths
  rw [Marked.publicPaths_object, Marked.publicPaths_object] at hsubset hpaths
  rw [Marked.plain_object, Marked.plain_object] at hconfig hsubset
  exact ⟨hconfig, hsubset, hpaths, hfiles⟩

variable {env : Environment} {other : Source} {cwd path : String}

/-- The load from a reordered source succeeds like the original one. -/
theorem Source.Reorders.exists_loaded (h : env.source.Reorders other) {loaded : Loaded}
    (hload : (load env cwd path).outcome = .ok loaded) :
    ∃ loaded', (load { env with source := other } cwd path).outcome = .ok loaded' ∧
      loaded.Reordered loaded' := by
  obtain ⟨hpath, dir, hdir, members, tree, hholds, htree, rfl⟩ := load_eq_ok_iff.1 hload
  obtain ⟨members', hholds', hmembers⟩ := h.exists_holds hholds
  obtain ⟨node', hnode', hsame⟩ := h.exists_tree _ _ _ _ (Document.reordered_object_iff.2 hmembers)
    hholds.distinct (Source.tree_object_of_eq_ok htree)
  obtain ⟨tree', rfl, htree'⟩ := Source.tree_object_eq_ok_iff.1 hnode'
  have hdistinct := Source.distinct_tree (Source.tree_object_of_eq_ok htree)
  refine ⟨_, load_eq_ok_iff.2 ⟨hpath, dir, hdir, members', tree', hholds', htree', rfl⟩,
    hsame.loaded hdistinct ?_⟩
  refine (List.perm_ext_iff_of_nodup (Source.nodup_visited _) (Source.nodup_visited _)).2
    fun file => ?_
  rw [Source.mem_visited_iff hholds htree, Source.mem_visited_iff hholds' htree']
  exact ⟨h.reaches, h.symm.reaches⟩

/-- **Member order inside objects carries no meaning.** Of loads from two sources that differ only
in it, one succeeds if and only if the other does. Then the configurations are equal up to member
order, and so are the public subsets; and the public paths are the same in some order, and so are
the files. -/
theorem load_ignores_member_order (h : env.source.DiffersInOrder other) (cwd path : String) :
    ((∃ loaded, (load env cwd path).outcome = .ok loaded) ↔
      ∃ loaded, (load { env with source := other } cwd path).outcome = .ok loaded) ∧
    ∀ loaded loaded', (load env cwd path).outcome = .ok loaded →
      (load { env with source := other } cwd path).outcome = .ok loaded' →
      Document.Reordered loaded.config loaded'.config ∧
      Document.Reordered loaded.publicSubset loaded'.publicSubset ∧
      loaded.publicPaths.Perm loaded'.publicPaths ∧ loaded.files.Perm loaded'.files := by
  refine ⟨⟨?_, ?_⟩, fun loaded loaded' hload hload' => ?_⟩
  · rintro ⟨loaded, hload⟩
    obtain ⟨loaded', hload', -⟩ := h.reorders.exists_loaded hload
    exact ⟨loaded', hload'⟩
  · rintro ⟨loaded', hload'⟩
    obtain ⟨loaded, hload, -⟩ :=
      @Source.Reorders.exists_loaded { env with source := other } _ _ _ h.reorders.symm _ hload'
    exact ⟨loaded, hload⟩
  · obtain ⟨loaded'', hload'', hsame⟩ := h.reorders.exists_loaded hload
    obtain rfl := Except.ok.inj (hload'.symm.trans hload'')
    exact ⟨hsame.config, hsame.publicSubset, hsame.publicPaths, hsame.files⟩

set_option maxRecDepth 4000 in
/-- When two public members change places, so do their places in the list of public paths, and
nothing else changes. -/
theorem publicPaths_of_exchanged_members :
    ∃ loaded loaded' : Loaded,
      (load (MemoryFiles.ofDocuments [("/a", .object [("m#public", .scalar .null),
        ("n#public", .scalar .null)])]).environment "/" "a").outcome = .ok loaded ∧
      (load (MemoryFiles.ofDocuments [("/a", .object [("n#public", .scalar .null),
        ("m#public", .scalar .null)])]).environment "/" "a").outcome = .ok loaded' ∧
      loaded.publicPaths ≠ loaded'.publicPaths ∧
      loaded.publicPaths.Perm loaded'.publicPaths ∧
      Document.Reordered loaded.publicSubset loaded'.publicSubset := by
  let m : String × Document := ("m#public", .scalar .null)
  let n : String × Document := ("n#public", .scalar .null)
  let files (members : Members Document) : MemoryFiles := .ofDocuments [("/a", .object members)]
  let loaded (first second : String) : Loaded :=
    ⟨[(first, .scalar .null), (second, .scalar .null)], [[.key first], [.key second]],
      [FilePath.root.resolve "a"]⟩
  have hload : (load (files [m, n]).environment "/" "a").outcome = .ok (loaded "m" "n") := by cbv
  have hload' : (load (files [n, m]).environment "/" "a").outcome = .ok (loaded "n" "m") := by cbv
  have hget (members : Members Document) (path : FilePath) : (files members).get? path.text =
      if "/a" = path.text then some ⟨.texts [(Document.object members).compact], 0⟩ else none := rfl
  have hreordered : Document.Reordered (.object [m, n]) (.object [n, m]) :=
    Document.reordered_object_iff.2 ⟨[m, n], List.forall₂_same.2 fun member _ => ⟨.refl member.2⟩,
      .swap n m []⟩
  have hdiffers : (files [m, n]).environment.source.DiffersInOrder (files [n, m]).source := by
    intro path
    by_cases hpath : "/a" = path.text
    · have hanswer (members : Members Document) : (files members).source.answer path 0 =
          .ok (Document.object members).compact := by
        rw [MemoryFiles.answer_source, hget, if_pos hpath]
        rfl
      exact Or.inr ⟨_, _, .object [m, n], .object [n, m], hanswer _, hanswer _, by cbv, by cbv,
        hreordered⟩
    · refine Or.inl ?_
      rw [MemoryFiles.environment, MemoryFiles.answer_source, MemoryFiles.answer_source, hget, hget,
        if_neg hpath, if_neg hpath]
  obtain ⟨-, hsame⟩ := load_ignores_member_order hdiffers "/" "a"
  obtain ⟨-, hsubset, hpaths, -⟩ := hsame _ _ hload hload'
  exact ⟨_, _, hload, hload', by decide, hpaths, hsubset⟩

end ConfigTree
