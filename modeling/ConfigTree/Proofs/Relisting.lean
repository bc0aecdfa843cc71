import ConfigTree.Proofs.Blame
import ConfigTree.Proofs.Repetition
import ConfigTree.Proofs.Transfer
import ConfigTree.Proofs.Walk

/-!
# Including the same files in another list

Documents may differ in nothing but which files their include members list, and how often
(`ConfigTree.Document.Relists`). What comes of such a difference is followed through a whole load
for any relation of lists that neither adds nor loses an item (`ConfigTree.Thinning`): it says how
the merges of related lists of trees are related, and how the walks through related lists of files
are. Where a document has a tree, a relisted one then has a related tree
(`ConfigTree.Thinning.exists_tree`), the walks from the two are related
(`ConfigTree.Thinning.walks`), and a load of the one succeeds when a load of the other does
(`ConfigTree.Thinning.load`).

A file that is named twice in a list has one tree and one walk, both times. So the list of trees is
what a function makes of the list of files (`ConfigTree.exists_map_of_forall₂`), and related lists
of files give related lists of trees.
-/

namespace ConfigTree

/-- Where each item is related to one other only, a function leads from a list to a related one. -/
theorem exists_map_of_forall₂ {α β : Type} [Inhabited β] {R : α → β → Prop} {xs : List α}
    {ys : List β} (h : List.Forall₂ R xs ys) (hunique : ∀ x y y', R x y → R x y' → y = y') :
    ∃ f : α → β, ys = xs.map f ∧ ∀ x ∈ xs, R x (f x) := by
  classical
  let f (x : α) : β := if hx : ∃ y, R x y then hx.choose else default
  have hf {x : α} {y : β} (hxy : R x y) : R x (f x) := by
    rw [show f x = _ from dif_pos ⟨y, hxy⟩]
    exact Exists.choose_spec ⟨y, hxy⟩
  refine ⟨f, ?_, fun x hx => ?_⟩
  · induction h with
    | nil => rfl
    | cons hxy _ ih => exact congrArg₂ List.cons (hunique _ _ _ hxy (hf hxy)) ih
  · obtain ⟨y, -, hxy⟩ := exists_right_of_forall₂ h hx
    exact hf hxy

/-- **A document with other include members**, whose values are related, and nothing else changed. -/
inductive Document.Relists (I : Document → Document → Prop) : Document → Document → Prop
  | scalar (s : Scalar) : Relists I (.scalar s) (.scalar s)
  | array {items items' : List Document} : List.Forall₂ (Relists I) items items' →
      Relists I (.array items) (.array items')
  | object {members members' : Members Document} :
      Option.Rel I (members.get? Directive.includeKey) (members'.get? Directive.includeKey) →
      List.Forall₂ (Members.SameKey (Relists I)) (members.erase Directive.includeKey)
        (members'.erase Directive.includeKey) →
      Relists I (.object members) (.object members')

namespace Document.Relists

variable {I : Document → Document → Prop} {d : Document} {members members' : Members Document}

theorem refl (hI : ∀ value, I value value) (d : Document) : Relists I d d := by
  induction d using Document.induction with
  | scalar s => exact .scalar s
  | array items ih => exact .array (List.forall₂_same.2 ih)
  | object members ih =>
    refine .object ?_ (List.forall₂_same.2 fun member hmember => ?_)
    · rcases Members.get? members Directive.includeKey with _ | value
      · exact .none
      · exact .some (hI value)
    · exact ⟨ih member (List.mem_filter.1 hmember).1⟩

theorem exists_object (h : Relists I (.object members) d) : ∃ members', d = .object members' := by
  cases h with
  | object => exact ⟨_, rfl⟩

section Members

variable (h : Relists I (.object members) (.object members'))

include h

theorem rel_include : Option.Rel I (members.get? Directive.includeKey)
    (members'.get? Directive.includeKey) := by
  cases h with
  | object hinclude => exact hinclude

theorem others : List.Forall₂ (Members.SameKey (Relists I)) (members.erase Directive.includeKey)
    (members'.erase Directive.includeKey) := by
  cases h with
  | object _ hothers => exact hothers

theorem rel_public : Option.Rel (Relists I) (members.get? Directive.publicKey)
    (members'.get? Directive.publicKey) := by
  have hkey : Directive.includeKey ≠ Directive.publicKey := by decide
  have hrel := Members.get?_of_forall₂ h.others Directive.publicKey
  rwa [Members.get?_erase, if_neg hkey, Members.get?_erase, if_neg hkey] at hrel

theorem ordinary : List.Forall₂ (Members.SameKey (Relists I)) (Directive.ordinary members)
    (Directive.ordinary members') := Members.forall₂_erase h.others Directive.publicKey

/-- The parts of relisted objects are relisted, in the order in which they are walked through. -/
theorem parts : List.Forall₂ (Relists I)
    ((members.get? Directive.publicKey).toList ++ (Directive.ordinary members).map Prod.snd)
    ((members'.get? Directive.publicKey).toList ++ (Directive.ordinary members').map Prod.snd) := by
  refine List.rel_append ?_ ?_
  · have hrel := h.rel_public
    generalize members.get? Directive.publicKey = block at hrel ⊢
    generalize members'.get? Directive.publicKey = block' at hrel ⊢
    cases hrel with
    | none => exact .nil
    | some hblock => exact .cons hblock .nil
  · rw [List.forall₂_map_left_iff, List.forall₂_map_right_iff]
    exact h.ordinary.imp fun _ _ => Members.SameKey.value

end Members

end Document.Relists

/-- The files that an include member lists, as seen from a directory, are related. -/
def Directive.ListsAs (L : List FilePath → List FilePath → Prop) (dir : FilePath)
    (value value' : Document) : Prop :=
  L ((includedTexts value).map dir.resolve) ((includedTexts value').map dir.resolve)

/-- **A source with other include members**: each document of a file is there, with related values
of the include members in it. -/
def Source.Relists (L : List FilePath → List FilePath → Prop) (source other : Source) : Prop :=
  ∀ path d, source.document path = .ok d →
    ∃ d', other.document path = .ok d' ∧ Document.Relists (Directive.ListsAs L path.parent) d d'

/-- **A congruence of trees**: related parts make related trees, and related trees merge alike. -/
structure TreeCongruence (T : Marked → Marked → Prop) : Prop where
  refl : ∀ t, T t t
  trans : ∀ {t t' t''}, T t t' → T t' t'' → T t t''
  array : ∀ {items items'}, List.Forall₂ T items items' → T (.array items) (.array items')
  object : ∀ {members members'},
    List.Forall₂ (Members.SameKey (Marked.SameMark T)) members members' →
      T (.object members) (.object members')
  merge : ∀ {base base' layer layer'}, T base base' → T layer layer' → base.Distinct →
    layer.Distinct → T (base.merge layer) (base'.merge layer')

/-- **Thinning**: related lists have the same items, the merges of related lists of trees are
related, and so are related lists of walks in a row. -/
structure Thinning (L : {α : Type} → List α → List α → Prop) (T : Marked → Marked → Prop)
    (W : List FilePath → List FilePath → Prop) : Prop where
  nil : ∀ {α : Type}, L ([] : List α) []
  map : ∀ {α β : Type} (f : α → β) {xs ys : List α}, L xs ys → L (xs.map f) (ys.map f)
  mem_iff : ∀ {α : Type} {xs ys : List α}, L xs ys → ∀ x, x ∈ xs ↔ x ∈ ys
  trees : TreeCongruence T
  foldl : ∀ {trees trees'} {base : Marked}, L trees trees' → base.Distinct →
    (∀ t ∈ trees, t.Distinct) → T (trees.foldl Marked.merge base) (trees'.foldl Marked.merge base)
  walk_refl : ∀ walk, W walk walk
  walk_trans : ∀ {walk walk' walk''}, W walk walk' → W walk' walk'' → W walk walk''
  walk_append : ∀ {walk walk' more more'}, W walk walk' → W more more' →
    W (walk ++ more) (walk' ++ more')
  walk_flatten : ∀ {walks walks' : List (List FilePath)}, L walks walks' →
    W walks.flatten walks'.flatten

theorem Marked.object_foldl (trees : List (Members (Bool × Marked)))
    (merged : Members (Bool × Marked)) :
    object (trees.foldl mergeMembers merged) = (trees.map object).foldl merge (object merged) := by
  rw [List.foldl_map]
  exact (List.foldl_hom object fun base layer => merge_object base layer).symm

/-- Related trees merge alike, one after the other. -/
theorem TreeCongruence.foldl {T : Marked → Marked → Prop} (hT : TreeCongruence T)
    {trees trees' : List Marked} (h : List.Forall₂ T trees trees') {base base' : Marked}
    (hbase : T base base') (hdistinct : base.Distinct) (htrees : ∀ t ∈ trees, t.Distinct) :
    T (trees.foldl Marked.merge base) (trees'.foldl Marked.merge base') := by
  induction h generalizing base base' with
  | nil => exact hbase
  | cons ht _ ih =>
    obtain ⟨hfirst, hrest⟩ := List.forall_mem_cons.1 htrees
    exact ih (hT.merge hbase ht hdistinct hfirst) (hdistinct.merge hfirst) hrest

/-! ### Trees -/

namespace Source

variable {source other : Source} {scope : Scope}

/-- What the file at a path is included as. -/
def IncludedAs (source : Source) (scope : Scope) (path : FilePath)
    (tree : Members (Bool × Marked)) : Prop :=
  path ∉ scope.chain ∧ ∃ contents, source.Holds path contents ∧
    source.objectTree (scope.enter path) contents = .ok tree

/-- The trees of included files are those of the targets of the texts. -/
theorem forall₂_included_iff {texts : List String} {trees : List (Members (Bool × Marked))} :
    List.Forall₂ (source.Included scope) texts trees ↔
      List.Forall₂ (source.IncludedAs scope) (texts.map scope.target) trees := by
  rw [List.forall₂_map_left_iff]
  rfl

theorem IncludedAs.unique {path : FilePath} {tree tree' : Members (Bool × Marked)}
    (h : source.IncludedAs scope path tree) (h' : source.IncludedAs scope path tree') :
    tree = tree' := by
  obtain ⟨-, contents, hholds, htree⟩ := h
  obtain ⟨-, contents', hholds', htree'⟩ := h'
  obtain rfl := hholds.unique hholds'
  exact Except.ok.inj (htree.symm.trans htree')

theorem IncludedAs.distinct {path : FilePath} {tree : Members (Bool × Marked)}
    (h : source.IncludedAs scope path tree) : (Marked.object tree).Distinct := by
  obtain ⟨-, contents, -, htree⟩ := h
  exact distinct_tree (tree_object_of_eq_ok htree)

end Source

namespace Thinning

open Source

variable {L : {α : Type} → List α → List α → Prop} {T : Marked → Marked → Prop}
  {W : List FilePath → List FilePath → Prop} (h : Thinning L T W) {source other : Source}
  {scope : Scope} {members members' : Members Document}

include h

/-- The files that an object includes are related, as seen from the directory of its file. -/
theorem targets {dir : FilePath} (hinclude : Option.Rel (Directive.ListsAs L dir)
      (members.get? Directive.includeKey) (members'.get? Directive.includeKey)) :
    L ((Directive.texts members).map dir.resolve) ((Directive.texts members').map dir.resolve) := by
  rw [Directive.texts, Directive.texts]
  generalize members.get? Directive.includeKey = value at hinclude ⊢
  generalize members'.get? Directive.includeKey = value' at hinclude ⊢
  cases hinclude with
  | none => exact h.nil
  | some hvalue => exact hvalue

/-- **Included files** merge to related trees. -/
theorem exists_included {paths paths' : List FilePath} {trees : List (Members (Bool × Marked))}
    (hpaths : L paths paths') (htrees : List.Forall₂ (source.IncludedAs scope) paths trees)
    (hfiles : ∀ path tree, source.IncludedAs scope path tree →
      ∃ tree', other.IncludedAs scope path tree' ∧ T (.object tree) (.object tree')) :
    ∃ trees', List.Forall₂ (other.IncludedAs scope) paths' trees' ∧
      T (.object (trees.foldl Marked.mergeMembers []))
        (.object (trees'.foldl Marked.mergeMembers [])) := by
  obtain ⟨f, rfl, hf⟩ := exists_map_of_forall₂ htrees fun _ _ _ => IncludedAs.unique
  have hf' : ∀ path ∈ paths', source.IncludedAs scope path (f path) :=
    fun path hpath => hf path ((h.mem_iff hpaths path).2 hpath)
  obtain ⟨trees', htrees'⟩ : ∃ trees', List.Forall₂ (fun path tree' =>
      other.IncludedAs scope path tree' ∧ T (.object (f path)) (.object tree')) paths' trees' :=
    exists_forall₂_iff.2 fun path hpath => hfiles path _ (hf' path hpath)
  refine ⟨trees', htrees'.imp fun _ _ => And.left, ?_⟩
  have hsame : List.Forall₂ T ((paths'.map f).map Marked.object) (trees'.map Marked.object) := by
    rw [List.map_map, List.forall₂_map_left_iff, List.forall₂_map_right_iff]
    exact htrees'.imp fun _ _ => And.right
  have hdistinct : ∀ t ∈ (paths.map f).map Marked.object, t.Distinct := by
    simp only [List.map_map, List.forall_mem_map]
    exact fun path hpath => (hf path hpath).distinct
  have hdistinct' : ∀ t ∈ (paths'.map f).map Marked.object, t.Distinct := by
    simp only [List.map_map, List.forall_mem_map]
    exact fun path hpath => (hf' path hpath).distinct
  rw [Marked.object_foldl, Marked.object_foldl]
  exact h.trees.trans (h.foldl (h.map _ (h.map f hpaths)) Marked.distinct_nil hdistinct)
    (h.trees.foldl hsame (h.trees.refl _) Marked.distinct_nil hdistinct')

/-- **Own members** have related entries. -/
theorem exists_entries {I : Document → Document → Prop}
    (hmembers : List.Forall₂ (Members.SameKey (Document.Relists I)) members members')
    {own : Members (Bool × Marked)} (hentries : List.Forall₂ (source.Entry scope) members own)
    (hown : ∀ member ∈ members, ∀ d', Document.Relists I member.2 d' →
      Transfers T source other (scope.member (Directive.name member.1)) member.2 d') :
    ∃ own', List.Forall₂ (other.Entry scope) members' own' ∧ T (.object own) (.object own') := by
  have hstep : ∀ member ∈ members, ∀ member' entry,
      Members.SameKey (Document.Relists I) member member' → source.Entry scope member entry →
      ∃ entry', other.Entry scope member' entry' ∧
        Members.SameKey (Marked.SameMark T) entry entry' := by
    intro member hmember member' entry hsame hentry
    have htransfers := hown member hmember
    obtain ⟨hvalue⟩ := hsame
    obtain ⟨name, mark, node⟩ := entry
    obtain ⟨rfl, rfl, hnode⟩ := hentry
    obtain ⟨node', hnode', hrelated⟩ := htransfers _ hvalue _ hnode
    exact ⟨(_, _, node'), ⟨rfl, rfl, hnode'⟩, ⟨⟨hrelated⟩⟩⟩
  obtain ⟨own', hentries', hsame⟩ := Members.exists_entries_of_forall₂ hmembers hentries hstep
  exact ⟨own', hentries', h.trees.object hsame⟩

/-- **An object** has a related tree if its parts have. -/
theorem exists_objectTree
    (hmembers : Document.Relists (Directive.ListsAs L scope.file.parent) (.object members)
      (.object members'))
    (hincluded : ∀ path tree, source.IncludedAs scope path tree →
      ∃ tree', other.IncludedAs scope path tree' ∧ T (.object tree) (.object tree'))
    (hblock : ∀ block, members.get? Directive.publicKey = some (.object block) → ∀ d',
      Document.Relists (Directive.ListsAs L scope.file.parent) (.object block) d' →
        Transfers T source other scope.inBlock (.object block) d')
    (hown : ∀ member ∈ Directive.ordinary members, ∀ d',
      Document.Relists (Directive.ListsAs L scope.file.parent) member.2 d' →
        Transfers T source other (scope.member (Directive.name member.1)) member.2 d')
    {tree : Members (Bool × Marked)} (htree : source.objectTree scope members = .ok tree) :
    ∃ tree', other.objectTree scope members' = .ok tree' ∧ T (.object tree) (.object tree') := by
  obtain ⟨trees, block, own, htrees, hpublic, hnames, hentries, rfl⟩ :=
    objectTree_eq_ok_iff.1 htree
  have hordinary := hmembers.ordinary
  obtain ⟨trees', htrees', hfiles⟩ :=
    h.exists_included (h.targets hmembers.rel_include) (forall₂_included_iff.1 htrees) hincluded
  obtain ⟨block', hpublic', hblocks⟩ := Transfers.exists_blockTree hmembers.rel_public hpublic
    (h.trees.refl _) fun contents d' hsome hd => by
      obtain ⟨contents', rfl⟩ := hd.exists_object
      exact ⟨contents', rfl, hblock contents hsome _ hd⟩
  obtain ⟨own', hentries', hown'⟩ := h.exists_entries hordinary hentries hown
  have hnames' : ((Directive.ordinary members').keys.map Directive.name).Nodup := by
    rwa [← Members.keys_eq_of_forall₂ hordinary]
  refine ⟨_, objectTree_eq_ok_iff.2 ⟨trees', block', own', forall₂_included_iff.2 htrees', hpublic',
    hnames', hentries', rfl⟩, ?_⟩
  -- no layer repeats a key, so that related layers merge alike
  have hbase : (Marked.object (trees.foldl Marked.mergeMembers [])).Distinct :=
    Marked.distinct_foldl (fun tree htree => by
      obtain ⟨text, -, hincluded⟩ := exists_left_of_forall₂ htrees htree
      exact hincluded.distinct) Marked.distinct_nil
  have hlayer := distinct_blockTree hpublic fun _ _ _ hblock =>
    distinct_tree (tree_object_of_eq_ok hblock)
  have hlast := distinct_entries hnames hentries fun _ _ _ => distinct_tree
  simp only [← Marked.merge_object]
  exact h.trees.merge (h.trees.merge hfiles hblocks hbase hlayer) hown' (hbase.merge hlayer) hlast

/-- **Relisted documents have related trees**, where one of them has a tree. -/
theorem exists_tree (hother : source.Relists L other) (scope : Scope) (d : Document) :
    ∀ d', Document.Relists (Directive.ListsAs L scope.file.parent) d d' →
      Transfers T source other scope d d' := by
  induction scope, d using expansion_induction source with
  | scalar scope s =>
    intro d' hd node hnode
    cases hd
    rw [tree_scalar, Except.ok.injEq] at hnode
    exact ⟨_, tree_scalar s, hnode ▸ h.trees.refl _⟩
  | array scope items ih =>
    intro d' hd
    cases hd with
    | array hitems => exact .array hitems (fun i item item' hitem => ih i item hitem item') h.trees.array
  | object scope members hincluded hblock hown =>
    intro d' hd node hnode
    obtain ⟨members', rfl⟩ := hd.exists_object
    obtain ⟨tree, rfl, htree⟩ := tree_object_eq_ok_iff.1 hnode
    have hfiles : ∀ path tree, source.IncludedAs scope path tree →
        ∃ tree', other.IncludedAs scope path tree' ∧ T (.object tree) (.object tree') := by
      rintro path tree ⟨hnew, contents, hholds, hcontents⟩
      obtain ⟨d', hdocument, hd⟩ := hother path _ (holds_iff.1 hholds)
      obtain ⟨contents', rfl⟩ := hd.exists_object
      have htarget : scope.target path.text = path := scope.file.parent.resolve_text path
      have htransfers := hincluded path.text contents (by rwa [htarget]) (by rwa [htarget])
      rw [htarget] at htransfers
      obtain ⟨tree', htree', hrelated⟩ := (htransfers _ hd).exists_objectTree hcontents
      exact ⟨tree', ⟨hnew, contents', holds_iff.2 hdocument, htree'⟩, hrelated⟩
    obtain ⟨tree', htree', hrelated⟩ := h.exists_objectTree hd hfiles hblock hown htree
    exact ⟨_, tree_object_of_eq_ok htree', hrelated⟩

end Thinning

/-! ### Walks -/

namespace Source

variable {source other : Source}

/-- **The walk to a file and on from it.** -/
def WalksFrom (source : Source) (path : FilePath) (walk : List FilePath) : Prop :=
  ∃ contents below, source.Holds path contents ∧ source.Walks path (.object contents) below ∧
    walk = path :: below

theorem WalksFrom.unique {path : FilePath} {walk walk' : List FilePath}
    (h : source.WalksFrom path walk) (h' : source.WalksFrom path walk') : walk = walk' := by
  obtain ⟨contents, below, hholds, hbelow, rfl⟩ := h
  obtain ⟨contents', below', hholds', hbelow', rfl⟩ := h'
  obtain rfl := hholds.unique hholds'
  rw [hbelow.unique _ hbelow']

/-- The walk from an include member leads to one named file after the other. -/
theorem WalksIncluded.exists_walks {file : FilePath} {items : List Document} {walk : List FilePath}
    (h : source.WalksIncluded file items walk) :
    ∃ walks, List.Forall₂ source.WalksFrom
      ((Directive.namedTexts items).map file.parent.resolve) walks ∧ walk = walks.flatten := by
  induction items generalizing walk with
  | nil =>
    cases h
    exact ⟨[], .nil, rfl⟩
  | cons item items ih =>
    cases h with
    | skipped hnothing hrest =>
      obtain ⟨walks, hwalks, rfl⟩ := ih hrest
      rw [Directive.namedTexts_cons_nothing hnothing]
      exact ⟨walks, hwalks, rfl⟩
    | entered htext hholds hbelow hrest =>
      obtain ⟨walks, hwalks, rfl⟩ := ih hrest
      rw [Directive.namedTexts_cons_string htext]
      exact ⟨_ :: walks, .cons ⟨_, _, hholds, hbelow, rfl⟩ hwalks, rfl⟩

end Source

namespace Thinning

open Source

variable {L : {α : Type} → List α → List α → Prop} {T : Marked → Marked → Prop}
  {W : List FilePath → List FilePath → Prop} {source other : Source} {file : FilePath}

theorem flatten (h : Thinning L T W) {walks walks' : List (List FilePath)}
    (hwalks : List.Forall₂ W walks walks') : W walks.flatten walks'.flatten := by
  induction hwalks with
  | nil => exact h.walk_refl _
  | cons hwalk _ ih => exact h.walk_append hwalk ih

/-- **Walks to related lists of files** are related, if those to each file are. -/
theorem walks_of_paths (h : Thinning L T W) {paths paths' : List FilePath}
    {walks walks' : List (List FilePath)} (hpaths : L paths paths')
    (hwalks : List.Forall₂ source.WalksFrom paths walks)
    (hwalks' : List.Forall₂ other.WalksFrom paths' walks')
    (hfiles : ∀ path walk walk', path ∈ paths → source.WalksFrom path walk →
      other.WalksFrom path walk' → W walk walk') : W walks.flatten walks'.flatten := by
  obtain ⟨f, rfl, hf⟩ := exists_map_of_forall₂ hwalks fun _ _ _ => WalksFrom.unique
  refine h.walk_trans (h.walk_flatten (h.map f hpaths)) (h.flatten ?_)
  rw [List.forall₂_map_left_iff]
  rw [List.forall₂_iff_get] at hwalks' ⊢
  refine ⟨hwalks'.1, fun i hi hi' => ?_⟩
  have hmem := (h.mem_iff hpaths _).2 (List.get_mem paths' ⟨i, hi⟩)
  exact hfiles _ _ _ hmem (hf _ hmem) (hwalks'.2 i hi hi')

mutual

/-- **Walks from relisted documents** are related. -/
theorem walks (h : Thinning L T W) (hother : source.Relists L other) {file : FilePath}
    {d d' : Document} {walk walk' : List FilePath} :
    source.Walks file d walk → Document.Relists (Directive.ListsAs L file.parent) d d' →
      other.Walks file d' walk' → W walk walk'
  | .scalar _, hd, hwalk' => by
    cases hd
    cases hwalk'
    exact h.walk_refl _
  | .array hitems, hd, hwalk' => by
    cases hd with
    | array hrel =>
      cases hwalk' with
      | array hitems' => exact walksAll h hother hitems hrel hitems'
  | .object hincluded hparts, hd, hwalk' => by
    have hfiles := walksIncluded h hother hincluded
    obtain ⟨members', rfl⟩ := hd.exists_object
    cases hwalk' with
    | object hincluded' hparts' =>
      have hrest := walksAll h hother hparts hd.parts hparts'
      obtain ⟨included, hpaths, rfl⟩ := hincluded.exists_walks
      obtain ⟨included', hpaths', rfl⟩ := hincluded'.exists_walks
      have htargets := h.targets hd.rel_include
      rw [Directive.texts_eq, Directive.texts_eq] at htargets
      exact h.walk_append (h.walks_of_paths htargets hpaths hpaths' hfiles) hrest

theorem walksAll (h : Thinning L T W) (hother : source.Relists L other) {file : FilePath}
    {ds ds' : List Document} {walk walk' : List FilePath} :
    source.WalksAll file ds walk →
      List.Forall₂ (Document.Relists (Directive.ListsAs L file.parent)) ds ds' →
      other.WalksAll file ds' walk' → W walk walk'
  | .nil, hds, hwalk' => by
    cases hds
    cases hwalk'
    exact h.walk_refl _
  | .cons hwalk hrest, hds, hwalk' => by
    cases hds with
    | cons hd hds =>
      obtain ⟨⟩ | ⟨hfirst, hlater⟩ := hwalk'
      exact h.walk_append (walks h hother hwalk hd hfirst) (walksAll h hother hrest hds hlater)

/-- Walks to a file that an include member names are related. -/
theorem walksIncluded (h : Thinning L T W) (hother : source.Relists L other) {file : FilePath}
    {items : List Document} {walk : List FilePath} :
    source.WalksIncluded file items walk → ∀ path first second,
      path ∈ (Directive.namedTexts items).map file.parent.resolve →
      source.WalksFrom path first → other.WalksFrom path second → W first second
  | .nil, _, _, _, hpath, _, _ => absurd hpath List.not_mem_nil
  | .skipped hnothing hrest, path, first, second, hpath, hfirst, hsecond =>
    walksIncluded h hother hrest path first second
      (by rwa [Directive.namedTexts_cons_nothing hnothing] at hpath) hfirst hsecond
  | .entered htext hholds hbelow hrest, path, first, second, hpath, hfirst, hsecond => by
    rw [Directive.namedTexts_cons_string htext, List.map_cons] at hpath
    rcases List.mem_cons.1 hpath with rfl | hpath
    · obtain ⟨contents', below', hholds', hbelow', rfl⟩ := hsecond
      obtain ⟨d', hdocument, hd⟩ := hother _ _ (holds_iff.1 hholds)
      obtain rfl := Except.ok.inj (hdocument.symm.trans (holds_iff.1 hholds'))
      rw [hfirst.unique ⟨_, _, hholds, hbelow, rfl⟩]
      exact h.walk_append (h.walk_refl [_]) (walks h hother hbelow hd hbelow')
    · exact walksIncluded h hother hrest path first second hpath hfirst hsecond

end

end Thinning

/-! ### Loads -/

/-- **A load from a relisted source** succeeds where the original one does, with a related tree and
a related walk. -/
theorem Thinning.load {L : {α : Type} → List α → List α → Prop} {T : Marked → Marked → Prop}
    {W : List FilePath → List FilePath → Prop} (h : Thinning L T W) {env : Environment}
    {other : Source} (hother : env.source.Relists L other) {cwd path : String} {loaded : Loaded}
    (hload : (ConfigTree.load env cwd path).outcome = .ok loaded) :
    ∃ root tree tree' walk walk', (Marked.object tree).Distinct ∧
      T (.object tree) (.object tree') ∧ W walk walk' ∧
      loaded = ⟨Marked.plainMembers tree, Marked.memberPaths tree,
        Progress.visitAll [] (root :: walk)⟩ ∧
      (ConfigTree.load { env with source := other } cwd path).outcome =
        .ok ⟨Marked.plainMembers tree', Marked.memberPaths tree',
          Progress.visitAll [] (root :: walk')⟩ := by
  obtain ⟨hpath, dir, hdir, members, tree, hholds, htree, rfl⟩ := load_eq_ok_iff.1 hload
  obtain ⟨d', hdocument, hd⟩ := hother _ _ (Source.holds_iff.1 hholds)
  obtain ⟨members', rfl⟩ := hd.exists_object
  have hholds' := Source.holds_iff.2 hdocument
  obtain ⟨tree', htree', hrelated⟩ :=
    (h.exists_tree hother (.top (dir.resolve path)) _ _ hd).exists_objectTree htree
  obtain ⟨walk, hwalk, -⟩ := Source.exists_walk (Source.tree_object_of_eq_ok htree)
  obtain ⟨walk', hwalk', -⟩ := Source.exists_walk (Source.tree_object_of_eq_ok htree')
  refine ⟨dir.resolve path, tree, tree', walk, walk',
    Source.distinct_tree (Source.tree_object_of_eq_ok htree), hrelated,
    h.walks hother hwalk hd hwalk', ?_, ?_⟩
  · rw [Progress.visitAll_nil_eq_eraseDups, Source.visited_eq_walk hholds htree hwalk]
  · rw [Progress.visitAll_nil_eq_eraseDups, ← Source.visited_eq_walk hholds' htree' hwalk']
    exact load_eq_ok_iff.2 ⟨hpath, dir, hdir, members', tree', hholds', htree', rfl⟩

end ConfigTree
