import ConfigTree.MemoryFiles
import ConfigTree.Proofs.Merge
import ConfigTree.Proofs.Outcome
import ConfigTree.Proofs.Transfer
import Mathlib

/-!
# Including is merging independent loads

The chain of files, the surroundings of an object and its place in a file decide whether a
load fails and what is public, but not what a configuration holds: where an object expands, it
expands to the same plain document from every shorter chain
(`ConfigTree.Source.Relocates.tree`). Nor does it matter what the files on the chain hold, since
none of them is entered again.

So every part of a configuration is the configuration of a load of its own. An included file
gives what it gives when it is loaded alone; the public block and the other members of the root
object give what they give when they stand in the root file alone; and the configuration is
these, each put over the ones before it (`ConfigTree.load_composes`).
-/

namespace ConfigTree

namespace Source

variable {source other : Source} {scope scope' : Scope}

/-! ### Expansions that only differ in their surroundings -/

/-- **Relocation**: from one scope to a scope in the same file, under a chain with no other
files, in a source that agrees on all files outside the chain. -/
structure Relocates (source other : Source) (scope scope' : Scope) : Prop where
  file_eq : scope'.file = scope.file
  chain_subset : scope'.chain ⊆ scope.chain
  holds : ∀ file contents, file ∉ scope.chain → source.Holds file contents →
    other.Holds file contents

namespace Relocates

theorem target_eq (h : Relocates source other scope scope') (text : String) :
    scope'.target text = scope.target text := by
  rw [Scope.target, Scope.target, h.file_eq]

theorem inBlock (h : Relocates source other scope scope') :
    Relocates source other scope.inBlock scope'.inBlock :=
  ⟨h.file_eq, h.chain_subset, h.holds⟩

theorem member (h : Relocates source other scope scope') (name : String) :
    Relocates source other (scope.member name) (scope'.member name) :=
  ⟨h.file_eq, h.chain_subset, h.holds⟩

theorem item (h : Relocates source other scope scope') (i : Nat) :
    Relocates source other (scope.item i) (scope'.item i) :=
  ⟨h.file_eq, h.chain_subset, h.holds⟩

theorem enter (h : Relocates source other scope scope') (path : FilePath) :
    Relocates source other (scope.enter path) (scope'.enter path) where
  file_eq := rfl
  chain_subset := List.append_subset.2 ⟨fun _ hf => List.mem_append_left _ (h.chain_subset hf),
    List.subset_append_right _ _⟩
  holds file contents hfile := h.holds file contents fun hmem =>
    hfile (List.mem_append_left _ hmem)

end Relocates

/-- What an array holds after a relocation, from what its items hold. -/
theorem relocate_array {items : List Document} {node : Marked}
    (h : source.tree scope (.array items) = .ok node)
    (hitems : ∀ i item, items[i]? = some item → ∀ node, source.tree (scope.item i) item = .ok node →
      ∃ node', other.tree (scope'.item i) item = .ok node' ∧ node'.plain = node.plain) :
    ∃ node', other.tree scope' (.array items) = .ok node' ∧ node'.plain = node.plain := by
  have hsame : List.Forall₂ Eq items items := List.forall₂_same.2 fun _ _ => rfl
  obtain ⟨nodes, nodes', rfl, hnode', hplain⟩ := exists_trees_of_array h hsame
    fun i item item' hitem heq => by
      subst heq
      exact hitems i item hitem
  refine ⟨_, hnode', ?_⟩
  rw [Marked.plain, Marked.plain, Marked.plainItems_eq_map, Marked.plainItems_eq_map,
    Document.array.injEq, ← List.forall₂_eq_eq_eq, List.forall₂_map_left_iff,
    List.forall₂_map_right_iff]
  exact hplain.flip

/-- What an object holds after a relocation, from what its parts hold. -/
theorem relocate_object {members : Members Document} {tree : Members (Bool × Marked)}
    (h : source.objectTree scope members = .ok tree)
    (hincluded : ∀ text tree, source.Included scope text tree → ∃ tree',
      other.Included scope' text tree' ∧ (Marked.object tree').plain = (Marked.object tree).plain)
    (hblock : ∀ block, members.get? Directive.publicKey = some (.object block) → ∀ tree,
      source.objectTree scope.inBlock block = .ok tree → ∃ tree',
        other.objectTree scope'.inBlock block = .ok tree' ∧
          (Marked.object tree').plain = (Marked.object tree).plain)
    (hown : ∀ member ∈ Directive.ordinary members, ∀ node,
      source.tree (scope.member (Directive.name member.1)) member.2 = .ok node → ∃ node',
        other.tree (scope'.member (Directive.name member.1)) member.2 = .ok node' ∧
          node'.plain = node.plain) :
    ∃ tree', other.objectTree scope' members = .ok tree' ∧
      (Marked.object tree').plain = (Marked.object tree).plain := by
  obtain ⟨trees, block, own, htrees, hb, hnames, hentries, rfl⟩ := objectTree_eq_ok_iff.1 h
  obtain ⟨trees', htrees', hplain⟩ := exists_forall₂_of_map htrees fun text _ => hincluded text
  have hpublic : ∃ block', other.blockTree scope' members = .ok block' ∧
      (Marked.object block').plain = (Marked.object block).plain := by
    rcases blockTree_eq_ok_iff.1 hb with ⟨hnone, rfl⟩ | ⟨contents, hcontents, hb⟩
    · exact ⟨[], blockTree_eq_ok_iff.2 (Or.inl ⟨hnone, rfl⟩), rfl⟩
    · obtain ⟨block', hb', hplain⟩ := hblock contents hcontents block hb
      exact ⟨block', blockTree_eq_ok_iff.2 (Or.inr ⟨contents, hcontents, hb'⟩), hplain⟩
  obtain ⟨block', hb', hblock'⟩ := hpublic
  have hmembers : ∀ member ∈ Directive.ordinary members, ∀ entry,
      source.Entry scope member entry → ∃ entry', other.Entry scope' member entry' ∧
        (entry'.1, entry'.2.2.plain) = (entry.1, entry.2.2.plain) := by
    rintro member hmember ⟨name, mark, node⟩ ⟨hname, -, hnode⟩
    obtain ⟨node', hnode', hplain⟩ := hown member hmember node hnode
    exact ⟨(_, _, node'), ⟨rfl, rfl, hnode'⟩, Prod.ext hname.symm hplain⟩
  obtain ⟨own', hentries', hown'⟩ := exists_forall₂_of_map hentries hmembers
  refine ⟨_, objectTree_eq_ok_iff.2 ⟨trees', block', own', htrees', hb', hnames, hentries', rfl⟩,
    ?_⟩
  -- without marks, both trees are the same parts put over each other
  rw [Marked.plain_mergeMembers, Marked.plain_mergeMembers, Marked.plain_foldl_mergeMembers, hplain,
    hblock', Marked.plain_mergeMembers, Marked.plain_mergeMembers, Marked.plain_foldl_mergeMembers]
  congr 1
  rw [Marked.plain, Marked.plain, Marked.plainMembers_eq_map, Marked.plainMembers_eq_map, hown']

/-- **What an expansion holds does not depend on its surroundings**: a relocated document has a
tree with the same plain document. -/
theorem Relocates.tree {d : Document} {node : Marked} (h : Relocates source other scope scope')
    (hnode : source.tree scope d = .ok node) :
    ∃ node', other.tree scope' d = .ok node' ∧ node'.plain = node.plain := by
  induction scope, d using expansion_induction source generalizing scope' node with
  | scalar scope s =>
    rw [tree_scalar, Except.ok.injEq] at hnode
    exact ⟨.scalar s, tree_scalar s, congrArg Marked.plain hnode⟩
  | array scope items ih =>
    exact relocate_array hnode fun i item hitem _ => ih i item hitem (h.item i)
  | object scope members hincluded hblock hown =>
    obtain ⟨tree, rfl, htree⟩ := tree_object_eq_ok_iff.1 hnode
    have hobject : ∃ tree', other.objectTree scope' members = .ok tree' ∧
        (Marked.object tree').plain = (Marked.object tree).plain := by
      refine relocate_object htree ?_ ?_ fun member hmember _ => hown member hmember (h.member _)
      · rintro text tree ⟨hnew, contents, hholds, htree⟩
        obtain ⟨node', hnode', hplain⟩ := hincluded text contents hnew hholds (h.enter _)
          (tree_object_of_eq_ok htree)
        obtain ⟨tree', rfl, htree'⟩ := tree_object_eq_ok_iff.1 hnode'
        refine ⟨tree', ?_, hplain⟩
        rw [Included, h.target_eq]
        exact ⟨fun hmem => hnew (h.chain_subset hmem), contents, h.holds _ _ hnew hholds, htree'⟩
      · intro block hb tree htree
        obtain ⟨node', hnode', hplain⟩ := hblock block hb h.inBlock
          (tree_object_of_eq_ok htree)
        obtain ⟨tree', rfl, htree'⟩ := tree_object_eq_ok_iff.1 hnode'
        exact ⟨tree', htree', hplain⟩
    obtain ⟨tree', htree', hplain⟩ := hobject
    exact ⟨.object tree', tree_object_of_eq_ok htree', hplain⟩

theorem Relocates.objectTree {members : Members Document} {tree : Members (Bool × Marked)}
    (h : Relocates source other scope scope') (htree : source.objectTree scope members = .ok tree) :
    ∃ tree', other.objectTree scope' members = .ok tree' ∧
      (Marked.object tree').plain = (Marked.object tree).plain := by
  obtain ⟨node', hnode', hplain⟩ := h.tree (tree_object_of_eq_ok htree)
  obtain ⟨tree', rfl, htree'⟩ := tree_object_eq_ok_iff.1 hnode'
  exact ⟨tree', htree', hplain⟩

/-! ### Other contents of one file -/

/-- The source with this text in one file, for every read of it. -/
def withFile (source : Source) (file : FilePath) (text : String) : Source where
  answer path n := if path = file then .ok text else source.answer path n
  finite := by
    refine ⟨file :: source.known, fun path n text' h => ?_⟩
    by_cases hpath : path = file
    · exact hpath ▸ List.mem_cons_self
    · rw [if_neg hpath] at h
      exact List.mem_cons_of_mem _ (mem_known ⟨n, text', h⟩)

theorem holds_withFile_self {file : FilePath} {text : String} {contents : Members Document}
    (h : Document.parse text = .ok (.object contents)) :
    (source.withFile file text).Holds file contents :=
  ⟨text, if_pos rfl, h⟩

theorem holds_withFile_of_ne {file path : FilePath} {text : String} {contents : Members Document}
    (hne : path ≠ file) (h : source.Holds path contents) :
    (source.withFile file text).Holds path contents := by
  obtain ⟨found, hfound, hparse⟩ := h
  exact ⟨found, (if_neg hne).trans hfound, hparse⟩

/-- Everything in a file can be relocated to the root of the file. -/
theorem relocates_top (scope : Scope) : Relocates source source scope (.top scope.file) where
  file_eq := rfl
  chain_subset := by simp [Scope.chain, Scope.top]
  holds _ _ _ h := h

/-- Nor does it matter then what the text of the file is. -/
theorem relocates_withFile (scope : Scope) (text : String) :
    Relocates source (source.withFile scope.file text) scope (.top scope.file) where
  file_eq := rfl
  chain_subset := by simp [Scope.chain, Scope.top]
  holds file contents hfile := by
    refine holds_withFile_of_ne ?_
    rintro rfl
    exact hfile (by simp [Scope.chain])

/-- **The configuration of an object**, if it is what a root file holds. -/
def configOf (source : Source) (root : FilePath) (members : Members Document) :
    Except LoadError Document :=
  (source.objectTree (.top root) members).map fun tree => (Marked.object tree).plain

end Source

/-- The environment with this text in one file. -/
def Environment.withFile (env : Environment) (file : FilePath) (text : String) : Environment :=
  { env with source := env.source.withFile file text }

/-- **The load of an object in place of the root file** gives this configuration, whatever text
the object has. -/
structure LoadsAs (env : Environment) (cwd path : String) (root : FilePath)
    (members : Members Document) (config : Document) : Prop where
  config_eq : env.source.configOf root members = .ok config
  load_eq : ∀ text, Document.parse text = .ok (.object members) →
    ∃ loaded, (load (env.withFile root text) cwd path).outcome = .ok loaded ∧
      loaded.config = config

/-- **What the value of a member resolves to**: a scalar to itself, an array item by item, and
an object to its configuration in place of the root file. -/
inductive ResolvesTo (env : Environment) (cwd path : String) (root : FilePath) :
    Document → Document → Prop
  | scalar (s : Scalar) : ResolvesTo env cwd path root (.scalar s) (.scalar s)
  | array {items results : List Document} : results.length = items.length →
      (∀ (i : Nat) item result, items[i]? = some item → results[i]? = some result →
        ResolvesTo env cwd path root item result) →
      ResolvesTo env cwd path root (.array items) (.array results)
  | object {members : Members Document} {config : Document} :
      LoadsAs env cwd path root members config →
      ResolvesTo env cwd path root (.object members) config

section Parts

variable {env : Environment} {cwd path : String} {dir : FilePath} {scope : Scope}

/-- What expands anywhere in the root file loads in place of it. -/
theorem loadsAs_of_tree {members : Members Document} {tree : Members (Bool × Marked)}
    (hpath : path ≠ "") (hdir : env.directory cwd = .ok dir) (hfile : scope.file = dir.resolve path)
    (h : env.source.objectTree scope members = .ok tree) :
    LoadsAs env cwd path (dir.resolve path) members (Marked.object tree).plain := by
  refine ⟨?_, fun text htext => ?_⟩
  · obtain ⟨tree', htree', hplain⟩ := (Source.relocates_top scope).objectTree h
    rw [Source.configOf, ← hfile, htree', ← hplain]
    rfl
  · obtain ⟨tree', htree', hplain⟩ := (Source.relocates_withFile scope text).objectTree h
    rw [hfile] at htree'
    refine ⟨_, load_eq_ok_iff.2 ⟨hpath, dir, hdir, members, tree',
      Source.holds_withFile_self htext, htree', rfl⟩, ?_⟩
    rw [Loaded.config, ← hplain, Marked.plain]

theorem resolvesTo_of_tree {d : Document} {node : Marked} (hpath : path ≠ "")
    (hdir : env.directory cwd = .ok dir) (hfile : scope.file = dir.resolve path)
    (h : env.source.tree scope d = .ok node) :
    ResolvesTo env cwd path (dir.resolve path) d node.plain := by
  induction scope, d using Source.expansion_induction env.source generalizing node with
  | scalar scope s =>
    rw [Source.tree_scalar, Except.ok.injEq] at h
    rw [← h, Marked.plain]
    exact .scalar s
  | array scope items ih =>
    obtain ⟨nodes, rfl, hlength, hnodes⟩ := Source.tree_array_eq_ok_iff.1 h
    rw [Marked.plain, Marked.plainItems_eq_map]
    refine .array (by rw [List.length_map, hlength]) fun i item result hitem hresult => ?_
    rw [List.getElem?_map, Option.map_eq_some_iff] at hresult
    obtain ⟨node, hnode, rfl⟩ := hresult
    exact ih i item hitem hfile (hnodes i item node hitem hnode)
  | object scope members _ _ _ =>
    obtain ⟨tree, rfl, htree⟩ := Source.tree_object_eq_ok_iff.1 h
    exact .object (loadsAs_of_tree hpath hdir hfile htree)

/-- An included file loads alone. -/
theorem load_of_included {text : String} {tree : Members (Bool × Marked)}
    (hdir : env.directory cwd = .ok dir) (h : env.source.Included scope text tree) :
    ∃ part, (load env cwd (scope.target text).text).outcome = .ok part ∧
      part.config = (Marked.object tree).plain := by
  obtain ⟨-, contents, hholds, htree⟩ := h
  obtain ⟨tree', htree', hplain⟩ :=
    (Source.relocates_top (scope.enter (scope.target text))).objectTree htree
  refine ⟨_, load_eq_ok_iff.2
    ⟨(scope.target text).text_ne_empty, dir, hdir, contents, tree', ?_, ?_, rfl⟩, ?_⟩
  · rwa [FilePath.resolve_text]
  · rwa [FilePath.resolve_text]
  · rw [Loaded.config, ← hplain, Marked.plain]

end Parts

/-! ### The parts of a configuration -/

namespace Directive

theorem get?_ordinary_includeKey (members : Members Document) :
    (ordinary members).get? includeKey = none := by
  rw [ordinary, Members.get?_erase, Members.get?_erase, if_pos rfl, ite_self]

theorem get?_ordinary_publicKey (members : Members Document) :
    (ordinary members).get? publicKey = none := by
  rw [ordinary, Members.get?_erase, if_pos rfl]

theorem ordinary_ordinary (members : Members Document) :
    ordinary (ordinary members) = ordinary members := by
  have hinclude := Members.erase_eq_self (get?_ordinary_includeKey members)
  have hpublic := Members.erase_eq_self (get?_ordinary_publicKey members)
  rw [ordinary, hinclude, hpublic]

end Directive

/-- The ordinary members of an object expand to the same members without the rest of it. -/
theorem Source.objectTree_ordinary {source : Source} {scope : Scope} {members : Members Document}
    {own : Members (Bool × Marked)}
    (hnames : ((Directive.ordinary members).keys.map Directive.name).Nodup)
    (hentries : List.Forall₂ (source.Entry scope) (Directive.ordinary members) own) :
    source.objectTree scope (Directive.ordinary members) = .ok own := by
  refine objectTree_eq_ok_iff.2 ⟨[], [], own, ?_, ?_, ?_, ?_, ?_⟩
  · rw [Directive.texts, Directive.get?_ordinary_includeKey]
    exact .nil
  · exact blockTree_eq_ok_iff.2 (Or.inl ⟨Directive.get?_ordinary_publicKey members, rfl⟩)
  · rwa [Directive.ordinary_ordinary]
  · rwa [Directive.ordinary_ordinary]
  · rw [List.foldl_nil, Marked.mergeMembers_nil, Marked.mergeMembers_nil]

/-- **Including is merging independent loads.** The configuration of a root file is built, in
this order, from those of the files that its root object includes, each loaded alone, and from
those of its public block and of its other members, each loaded in place of the root file. And
the last one has a member for each of the other members, under its name, with what its value
resolves to. -/
theorem load_composes {env : Environment} {cwd path : String} {loaded : Loaded}
    (h : (load env cwd path).outcome = .ok loaded) :
    ∃ dir members, env.directory cwd = .ok dir ∧ env.source.Holds (dir.resolve path) members ∧
      ∃ included block blockConfig own,
        List.Forall₂ (fun text part =>
            (load env cwd ((dir.resolve path).parent.resolve text).text).outcome = .ok part)
          (Directive.texts members) included ∧
        (members.get? Directive.publicKey).getD (.object []) = .object block ∧
        LoadsAs env cwd path (dir.resolve path) block blockConfig ∧
        LoadsAs env cwd path (dir.resolve path) (Directive.ordinary members) (.object own) ∧
        loaded.config =
          (included.map Loaded.config ++ [blockConfig, .object own]).foldl Document.overlay
            (.object []) ∧
        List.Forall₂ (fun member part => Directive.IsName member.1 part.1 ∧
            ResolvesTo env cwd path (dir.resolve path) member.2 part.2)
          (Directive.ordinary members) own := by
  obtain ⟨hpath, dir, hdir, members, tree, hholds, htree, rfl⟩ := load_eq_ok_iff.1 h
  obtain ⟨trees, block, own, htrees, hblock, hnames, hentries, rfl⟩ :=
    Source.objectTree_eq_ok_iff.1 htree
  obtain ⟨included, hincluded, hconfigs⟩ := exists_forall₂_of_map htrees
    fun text _ tree htree => load_of_included hdir htree
  obtain ⟨contents, hcontents, hblock⟩ : ∃ contents,
      (members.get? Directive.publicKey).getD (.object []) = .object contents ∧
        LoadsAs env cwd path (dir.resolve path) contents (Marked.object block).plain := by
    rcases Source.blockTree_eq_ok_iff.1 hblock with ⟨hnone, rfl⟩ | ⟨contents, hcontents, hblock⟩
    · -- an object without a block has an empty one
      have hempty : env.source.objectTree (.top (dir.resolve path)) (Directive.ordinary []) =
          .ok [] :=
        Source.objectTree_ordinary List.nodup_nil .nil
      exact ⟨[], by rw [hnone]; rfl, loadsAs_of_tree hpath hdir rfl hempty⟩
    · exact ⟨contents, by rw [hcontents]; rfl, loadsAs_of_tree hpath hdir rfl hblock⟩
  have hown := loadsAs_of_tree hpath hdir rfl (Source.objectTree_ordinary hnames hentries)
  rw [Marked.plain] at hown
  refine ⟨dir, members, hdir, hholds, included, contents, _, _, hincluded, hcontents, hblock, hown,
    ?_, ?_⟩
  · rw [Loaded.config, ← Marked.plain, Marked.plain_mergeMembers, Marked.plain_mergeMembers,
      Marked.plain_foldl_mergeMembers, hconfigs, List.foldl_append]
    rfl
  · rw [Marked.plainMembers_eq_map, List.forall₂_map_right_iff]
    refine hentries.imp ?_
    rintro member entry ⟨hname, -, hnode⟩
    exact ⟨Directive.isName_iff.2 hname.symm, resolvesTo_of_tree hpath hdir rfl hnode⟩

/-- A file with a marked member that includes another file. -/
def overlaidFiles : MemoryFiles :=
  .ofDocuments [
    ("/a", .object [("#include", .scalar (.string "b")), ("k#public", .scalar .null)]),
    ("/b", .object [("k", .scalar (.bool true)), ("l", .array [])])]

theorem load_overlaidFiles :
    ∃ loaded, (load overlaidFiles.environment "/" "a").outcome = .ok loaded ∧
      loaded.config = .object [("k", .scalar .null), ("l", .array [])] := by
  let members : Members Document :=
    [("#include", .scalar (.string "b")), ("k#public", .scalar .null)]
  let contents : Members Document := [("k", .scalar (.bool true)), ("l", .array [])]
  let file := FilePath.root.resolve "a"
  have hholds : overlaidFiles.source.Holds file members := ⟨_, rfl, by cbv⟩
  have htarget : (Scope.top file).target "b" = FilePath.root.resolve "b" := by cbv
  have hincluded : overlaidFiles.source.Included (.top file) "b"
      [("k", false, .scalar (.bool true)), ("l", false, .array [])] := by
    rw [Source.Included, htarget]
    exact ⟨by decide, contents, ⟨_, rfl, by cbv⟩, by cbv⟩
  have hentry : overlaidFiles.source.Entry (.top file) ("k#public", .scalar .null)
      ("k", true, .scalar .null) :=
    ⟨by decide, by decide, Source.tree_scalar _⟩
  have htexts : Directive.texts members = ["b"] := by decide
  have hordinary : Directive.ordinary members = [("k#public", .scalar .null)] := by decide
  have htrees := List.Forall₂.cons hincluded .nil
  have hentries := List.Forall₂.cons hentry .nil
  rw [← htexts] at htrees
  rw [← hordinary] at hentries
  have hnames : ((Directive.ordinary members).keys.map Directive.name).Nodup := by
    rw [hordinary]
    exact List.pairwise_singleton _ _
  have htree := Source.objectTree_eq_ok_iff.2 ⟨_, [], _, htrees,
    Source.blockTree_eq_ok_iff.2 (Or.inl ⟨rfl, rfl⟩), hnames, hentries, rfl⟩
  exact ⟨_, load_eq_ok_iff.2 ⟨by decide, .root, by cbv, members, _, hholds, htree, rfl⟩, rfl⟩

/-- The load of such a file is put over those of the files it includes. -/
theorem load_composes_of_overlaidFiles :
    ∃ loaded dir members included block own,
      (load overlaidFiles.environment "/" "a").outcome = .ok loaded ∧
        overlaidFiles.environment.source.Holds (FilePath.resolve dir "a") members ∧
        List.Forall₂ (fun text part =>
            (load overlaidFiles.environment "/"
              ((FilePath.resolve dir "a").parent.resolve text).text).outcome = .ok part)
          (Directive.texts members) included ∧
        loaded.config = (included.map Loaded.config ++ [block, own]).foldl Document.overlay
          (.object []) ∧
        loaded.config = .object [("k", .scalar .null), ("l", .array [])] := by
  obtain ⟨loaded, hload, hvalue⟩ := load_overlaidFiles
  obtain ⟨dir, members, -, hholds, included, -, block, own, hincluded, -, -, -, hconfig, -⟩ :=
    load_composes hload
  exact ⟨loaded, dir, members, included, block, _, hload, hholds, hincluded, hconfig, hvalue⟩

end ConfigTree
