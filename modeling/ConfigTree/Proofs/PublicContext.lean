import ConfigTree.Proofs.Composition
import ConfigTree.Proofs.Coupling
import ConfigTree.Proofs.Faults
import ConfigTree.Proofs.PublicSubset

/-!
# Public surroundings

An object may be expanded where everything is public, or where nothing is. The two runs are **in
step** (`ConfigTree.Load.InStep`): from the same progress they come to the same progress, whatever
is in the cache, and fail with the same error or both succeed. The trees that they give differ in
marks only, and where everything is public every member of every object is marked
(`ConfigTree.Marked.MadePublic`). Runs in step are closed under sequencing, and merging keeps trees
made public, so that the rest is the recursion of the functions that expand
(`ConfigTree.Load.inStep_expansion`).

Hence a file has the same configuration when it is included from the public block of a root file
with nothing else in it, and all of it is public then: the subset of a document at all its members
is the document (`ConfigTree.Document.subset_members`).
-/

namespace ConfigTree

/-! ### Trees in which everything is marked -/

namespace Marked

/-- **Marked throughout**: every member of every object in the tree is marked. -/
inductive AllMarked : Marked → Prop
  | scalar (s : Scalar) : AllMarked (.scalar s)
  | array {items : List Marked} : (∀ item ∈ items, AllMarked item) → AllMarked (.array items)
  | object {members : List (String × Bool × Marked)} :
      (∀ member ∈ members, member.2.1 = true) → (∀ member ∈ members, AllMarked member.2.2) →
      AllMarked (.object members)

/-- An entry that is marked, and so is everything below it. -/
def EntryMarked (entry : Bool × Marked) : Prop := entry.1 = true ∧ entry.2.AllMarked

theorem allMarked_array_iff {items : List Marked} :
    (array items).AllMarked ↔ ∀ item ∈ items, item.AllMarked := by
  constructor
  · rintro (_ | hitems)
    exact hitems
  · exact .array

theorem allMarked_object_iff {members : Members (Bool × Marked)} :
    (object members).AllMarked ↔ ∀ member ∈ members, EntryMarked member.2 := by
  constructor
  · rintro (_ | _ | ⟨hmarks, hnodes⟩) member hmember
    exact ⟨hmarks member hmember, hnodes member hmember⟩
  · intro h
    exact .object (fun member hmember => (h member hmember).1) fun member hmember =>
      (h member hmember).2

/-- A member of the base in a merge, with what it was there. -/
theorem exists_of_mem_mergeShared {base layer : Members (Bool × Marked)}
    {member : String × Bool × Marked} (h : member ∈ mergeShared base layer) :
    ∃ entry, (member.1, entry) ∈ base ∧
      mergeEntries (some entry) (layer.get? member.1) = some member.2 := by
  induction base with
  | nil =>
    rw [mergeShared] at h
    exact absurd h List.not_mem_nil
  | cons first rest ih =>
    obtain ⟨key, entry⟩ := first
    obtain ⟨merged, hmerged, hshared⟩ := mergeShared_cons key entry rest layer
    rw [hshared] at h
    rcases List.mem_cons.1 h with rfl | h
    · exact ⟨entry, List.mem_cons_self, hmerged⟩
    · obtain ⟨entry, hentry, heq⟩ := ih h
      exact ⟨entry, List.mem_cons_of_mem _ hentry, heq⟩

/-- **Merging keeps trees marked throughout.** -/
theorem AllMarked.merge {base layer : Marked} (hbase : base.AllMarked) (hlayer : layer.AllMarked) :
    (base.merge layer).AllMarked := by
  induction base using Marked.induction generalizing layer with
  | scalar s => rwa [scalar_merge]
  | array items => rwa [array_merge]
  | object base ih =>
    rcases layer with s | items | layer
    · rwa [merge_scalar]
    · rwa [merge_array]
    · rw [allMarked_object_iff] at hbase hlayer
      rw [merge_object, allMarked_object_iff]
      intro member hmember
      rcases List.mem_append.1 hmember with hshared | hnew
      · obtain ⟨entry, hentry, heq⟩ := exists_of_mem_mergeShared hshared
        obtain ⟨hmark, hnode⟩ := hbase _ hentry
        rcases hl : Members.get? layer member.1 with _ | other
        · rw [hl, mergeEntries_none_right] at heq
          exact Option.some.inj heq ▸ ⟨hmark, hnode⟩
        · rw [hl, mergeEntries, mergeEntry] at heq
          obtain ⟨-, hother⟩ := hlayer _ (Members.mem_of_get? hl)
          refine Option.some.inj heq ▸ ⟨?_, ih _ hentry hnode hother⟩
          exact Bool.or_eq_true_iff.2 (Or.inl hmark)
      · exact hlayer _ (List.mem_filter.1 hnew).1

/-- **A tree made public**: nothing but marks is different, and everything is marked. -/
structure MadePublic (t t' : Marked) : Prop where
  plain_eq : t'.plain = t.plain
  allMarked : t'.AllMarked

theorem MadePublic.merge {base base' layer layer' : Marked} (hbase : MadePublic base base')
    (hlayer : MadePublic layer layer') : MadePublic (base.merge layer) (base'.merge layer') where
  plain_eq := by rw [plain_merge, plain_merge, hbase.plain_eq, hlayer.plain_eq]
  allMarked := hbase.allMarked.merge hlayer.allMarked

theorem madePublic_scalar (s : Scalar) : MadePublic (.scalar s) (.scalar s) := ⟨rfl, .scalar s⟩

theorem madePublic_nil : MadePublic (.object []) (.object []) := ⟨rfl, .object nofun nofun⟩

theorem madePublic_noItems : MadePublic (.array []) (.array []) := ⟨rfl, .array nofun⟩

theorem MadePublic.cons {node node' : Marked} {rest rest' : Members (Bool × Marked)}
    (hnode : MadePublic node node') (hrest : MadePublic (.object rest) (.object rest'))
    (key : String) (marked : Bool) :
    MadePublic (.object ((key, marked, node) :: rest)) (.object ((key, true, node') :: rest')) := by
  obtain ⟨hplain, hmarked⟩ := hrest
  rw [plain_object, plain_object, Document.object.injEq] at hplain
  refine ⟨?_, ?_⟩
  · rw [plain_object, plain_object, plainMembers, plainMembers, hnode.plain_eq, hplain]
  · rw [allMarked_object_iff] at hmarked ⊢
    exact List.forall_mem_cons.2 ⟨⟨rfl, hnode.allMarked⟩, hmarked⟩

theorem MadePublic.consItem {node node' : Marked} {rest rest' : List Marked}
    (hnode : MadePublic node node') (hrest : MadePublic (.array rest) (.array rest')) :
    MadePublic (.array (node :: rest)) (.array (node' :: rest')) := by
  obtain ⟨hplain, hmarked⟩ := hrest
  rw [plain, plain, Document.array.injEq] at hplain
  refine ⟨?_, ?_⟩
  · rw [plain, plain, plainItems, plainItems, hnode.plain_eq, hplain]
  · rw [allMarked_array_iff] at hmarked ⊢
    exact List.forall_mem_cons.2 ⟨hnode.allMarked, hmarked⟩

/-- The outermost marks of an object that is marked throughout are its members. -/
theorem memberPaths_of_allMarked {members : Members (Bool × Marked)}
    (h : (object members).AllMarked) :
    memberPaths members = members.keys.map fun key => [.key key] := by
  induction members with
  | nil => rw [memberPaths, Members.keys, List.map_nil, List.map_nil]
  | cons member rest ih =>
    obtain ⟨key, marked, node⟩ := member
    obtain ⟨hfirst, hrest⟩ := List.forall_mem_cons.1 (allMarked_object_iff.1 h)
    obtain rfl : marked = true := hfirst.1
    rw [memberPaths_cons, ih (allMarked_object_iff.2 hrest)]
    rfl

end Marked

/-! ### Computations in step -/

namespace Load

open Marked

variable {source : Source} {α β α' β' : Type} {V : α → β → Prop} {W : α' → β' → Prop}

/-- **Computations in step**: from the same progress they come to the same progress, and fail with
the same error or give values that correspond. -/
def InStep (V : α → β → Prop) (load : Load source α) (load' : Load source β) : Prop :=
  ∀ progress, SameOutcome V (result load progress) (result load' progress) ∧
    after load' progress = after load progress

theorem inStep_pure {a : α} {b : β} (h : V a b) :
    InStep V (pure a : Load source α) (pure b : Load source β) :=
  fun _ => ⟨.ok h, rfl⟩

theorem inStep_throw (e : LoadError) :
    InStep V (throw e : Load source α) (throw e : Load source β) :=
  fun _ => ⟨.error e, rfl⟩

/-- A computation is in step with itself. -/
theorem inStep_refl (load : Load source α) : InStep Eq load load := by
  refine fun progress => ⟨?_, rfl⟩
  rcases result load progress with e | a
  · exact .error e
  · exact .ok rfl

/-- **Computations in step, in sequence,** are in step. -/
theorem InStep.bind {load : Load source α} {load' : Load source β} {next : α → Load source α'}
    {next' : β → Load source β'} (h : InStep V load load')
    (hnext : ∀ a b, V a b → InStep W (next a) (next' b)) :
    InStep W (load >>= next) (load' >>= next') := by
  intro progress
  obtain ⟨houtcome, hafter⟩ := h progress
  rw [result_bind, result_bind, after_bind, after_bind, hafter]
  generalize result load progress = outcome at houtcome ⊢
  generalize result load' progress = outcome' at houtcome ⊢
  cases houtcome with
  | error e => exact ⟨.error e, rfl⟩
  | ok hab => exact hnext _ _ hab _

/-! ### Expansions where everything is public -/

/-- Members of an object that were made public. -/
def PublicMembers (tree tree' : Members (Bool × Marked)) : Prop :=
  MadePublic (.object tree) (.object tree')

theorem PublicMembers.merge {base base' layer layer' : Members (Bool × Marked)}
    (hbase : PublicMembers base base') (hlayer : PublicMembers layer layer') :
    PublicMembers (mergeMembers base layer) (mergeMembers base' layer') := by
  rw [PublicMembers, ← merge_object, ← merge_object]
  exact MadePublic.merge hbase hlayer

/-- Objects are in step when their three parts are. The public block is the same run on both
sides. -/
theorem inStep_object {scope : Scope} {members : Members Document}
    (hincluded : InStep PublicMembers (expandIncluded scope members : Load source _)
      (expandIncluded scope.inBlock members))
    (hblock : ∀ block, members.get? Directive.publicKey = some (.object block) →
      InStep PublicMembers (expandObject scope.inBlock block : Load source _)
        (expandObject scope.inBlock.inBlock block))
    (hown : InStep PublicMembers
      (expandMembers scope [] (Directive.ordinary members) : Load source _)
      (expandMembers scope.inBlock [] (Directive.ordinary members))) :
    InStep PublicMembers (expandObject scope members : Load source _)
      (expandObject scope.inBlock members) := by
  have hpublic : InStep PublicMembers (expandBlock scope members : Load source _)
      (expandBlock scope.inBlock members) := by
    rw [expandBlock, expandBlock]
    split
    · exact inStep_pure madePublic_nil
    · exact hblock _ ‹_›
    · exact inStep_throw _
  rw [expandObject_eq, expandObject_eq]
  exact hincluded.bind fun _ _ hi => hpublic.bind fun _ _ hb => hown.bind fun _ _ ho =>
    inStep_pure ((PublicMembers.merge hi hb).merge ho)

/-- **Expansions are in step** with those where everything is public, all five together along their
recursion. -/
theorem inStep_expansion :
    (∀ scope members, InStep PublicMembers (expandObject scope members : Load source _)
      (expandObject scope.inBlock members)) ∧
    (∀ scope texts merged merged', PublicMembers merged merged' →
      InStep PublicMembers (expandIncludes scope texts merged : Load source _)
        (expandIncludes scope.inBlock texts merged')) ∧
    (∀ scope taken members, InStep PublicMembers (expandMembers scope taken members : Load source _)
      (expandMembers scope.inBlock taken members)) ∧
    (∀ scope d, InStep MadePublic (expand scope d : Load source _) (expand scope.inBlock d)) ∧
    ∀ scope i items, InStep (fun nodes nodes' => MadePublic (.array nodes) (.array nodes'))
      (expandItems scope i items : Load source _) (expandItems scope.inBlock i items) := by
  refine @expandObject.mutual_induct source _ _ _ _ _ ?_ ?_ ?_ ?_ ?_ ?_ ?_ ?_ ?_ ?_ ?_ ?_ ?_
  · intro scope members hnone hown hblock
    refine inStep_object ?_ hblock hown
    rw [expandIncluded, expandIncluded, hnone]
    exact inStep_pure madePublic_nil
  · intro scope members value hsome hown hblock hincludes
    refine inStep_object ?_ hblock hown
    rw [expandIncluded, expandIncluded, hsome]
    exact (inStep_refl _).bind fun _ _ _ => hincludes [] madePublic_nil
  · intro scope merged merged' hmerged
    rw [expandIncludes, expandIncludes]
    exact inStep_pure hmerged
  · intro scope text rest merged path hchain merged' hmerged
    have hchain' : scope.inBlock.target text ∈ scope.inBlock.chain := hchain
    rw [expandIncludes, expandIncludes, dif_pos hchain, dif_pos hchain']
    exact inStep_throw _
  · intro scope text rest merged path hchain hfile hrest merged' hmerged
    have hchain' : scope.inBlock.target text ∉ scope.inBlock.chain := hchain
    rw [expandIncludes, expandIncludes, dif_neg hchain, dif_neg hchain']
    refine (inStep_refl _).bind fun _ _ _ => (inStep_refl _).bind fun file file' hsame => ?_
    subst hsame
    exact (hfile file).bind fun tree tree' htree => hrest tree _ (hmerged.merge htree)
  · intro scope taken
    rw [expandMembers, expandMembers]
    exact inStep_pure madePublic_nil
  · intro scope taken key value rest name marked hname htaken _ _
    obtain rfl : Directive.name key = name := congrArg Prod.fst hname
    rw [expandMembers_cons, expandMembers_cons, if_pos htaken, if_pos htaken]
    exact inStep_throw _
  · intro scope taken key value rest name marked hname htaken hvalue hrest
    obtain rfl : Directive.name key = name := congrArg Prod.fst hname
    rw [expandMembers_cons, expandMembers_cons, if_neg htaken, if_neg htaken]
    refine hvalue.bind fun node node' hnode => hrest.bind fun others others' hothers =>
      inStep_pure ?_
    rw [show scope.inBlock.isPublic = true from rfl, Bool.or_true]
    exact hnode.cons hothers _ _
  · intro scope s
    rw [expand, expand]
    exact inStep_pure (madePublic_scalar s)
  · intro scope items hitems
    rw [expand, expand]
    exact hitems.bind fun _ _ hnodes => inStep_pure hnodes
  · intro scope members hmembers
    rw [expand, expand]
    exact hmembers.bind fun _ _ htree => inStep_pure htree
  · intro scope i
    rw [expandItems, expandItems]
    exact inStep_pure madePublic_noItems
  · intro scope i item rest hitem hrest
    rw [expandItems, expandItems]
    exact hitem.bind fun _ _ hnode => hrest.bind fun _ _ hothers =>
      inStep_pure (hnode.consItem hothers)

end Load

namespace Source

variable {source : Source} {scope : Scope} {members : Members Document}
  {tree : Members (Bool × Marked)}

/-- **A tree from where everything is public** is one from where it is not, made public. -/
theorem exists_objectTree_of_inBlock (h : source.objectTree scope.inBlock members = .ok tree) :
    ∃ tree', source.objectTree scope members = .ok tree' ∧
      Marked.MadePublic (.object tree') (.object tree) := by
  obtain ⟨houtcome, -⟩ := Load.inStep_expansion.1 scope members (.start : Progress source)
  rw [← Load.outcome, ← Load.outcome, ← objectTree, ← objectTree, h] at houtcome
  generalize source.objectTree scope members = outcome at houtcome ⊢
  cases houtcome with
  | ok htree => exact ⟨_, rfl, htree⟩

/-! ### A file in a public block -/

theorem texts_include (value : Document) :
    Directive.texts [(Directive.includeKey, value)] = Directive.includedTexts value := rfl

/-- An object that only includes one file has the tree of that file. -/
theorem Included.objectTree {value : Document} {text : String} (h : source.Included scope text tree)
    (htexts : Directive.includedTexts value = [text]) :
    source.objectTree scope [(Directive.includeKey, value)] = .ok tree := by
  refine objectTree_eq_ok_iff.2 ⟨[tree], [], [], ?_, blockTree_eq_ok_iff.2 (Or.inl ⟨rfl, rfl⟩),
    List.nodup_nil, .nil, ?_⟩
  · rw [texts_include, htexts]
    exact .cons h .nil
  · rw [List.foldl_cons, List.foldl_nil, Marked.mergeMembers_nil, Marked.mergeMembers_nil_right,
      Marked.mergeMembers_nil_right]

/-- An object that is only a public block has the tree of that block. -/
theorem objectTree_block {block : Members Document}
    (h : source.objectTree scope.inBlock block = .ok tree) :
    source.objectTree scope [(Directive.publicKey, .object block)] = .ok tree := by
  refine objectTree_eq_ok_iff.2 ⟨[], tree, [], .nil,
    blockTree_eq_ok_iff.2 (Or.inr ⟨block, rfl, h⟩), List.nodup_nil, .nil, ?_⟩
  rw [List.foldl_nil, Marked.mergeMembers_nil, Marked.mergeMembers_nil_right]

/-- **A file that loads can be included** from a file that leads to it, as long as the files on the
chain lead there. -/
theorem exists_included_of_edge {text : String} (h : source.Entered (.top (scope.target text)))
    (hedge : source.Edge scope.file (scope.target text))
    (hchain : ∀ f ∈ scope.chain, source.Reaches f scope.file) :
    ∃ tree, source.Included scope text tree := by
  have hfaultless := h.faultless
  obtain ⟨contents, hholds, -⟩ := h
  -- a file that leads back to the chain would be on a cycle, and then it would not load
  have hnew : scope.target text ∉ scope.chain := fun hmem =>
    hfaultless.acyclic _ .refl (.tail' (hchain _ hmem) hedge)
  obtain ⟨node, hnode⟩ : source.Expands (scope.enter (scope.target text)) (.object contents) := by
    refine hfaultless.expands .refl hholds .root fun f hf => ?_
    rcases List.mem_append.1 hf with hf | hf
    · exact (hchain f hf).tail hedge
    · rw [List.mem_singleton.1 hf]
      exact .refl
  obtain ⟨tree, -, htree⟩ := tree_object_eq_ok_iff.1 hnode
  exact ⟨tree, hnew, contents, hholds, htree⟩

/-- **A root file with a public block that includes one file** has the tree of that file, made
public. -/
theorem exists_objectTree_of_publicInclude {root : FilePath} {contents : Members Document}
    {value : Document} {text : String}
    (hroot : source.Holds root [(Directive.publicKey, .object [(Directive.includeKey, value)])])
    (htexts : Directive.includedTexts value = [text])
    (hfile : source.Holds ((Scope.top root).target text) contents)
    (htree : source.objectTree (.top ((Scope.top root).target text)) contents = .ok tree) :
    ∃ tree', source.objectTree (.top root)
        [(Directive.publicKey, .object [(Directive.includeKey, value)])] = .ok tree' ∧
      Marked.MadePublic (.object tree) (.object tree') := by
  have htext : text ∈ Directive.texts [(Directive.includeKey, value)] := by
    rw [texts_include, htexts]
    exact List.mem_singleton_self text
  have hentered : source.Entered (.top ((Scope.top root).target text)) :=
    ⟨contents, hfile, _, tree_object_of_eq_ok htree⟩
  have hedge : source.Edge (Scope.top root).file ((Scope.top root).target text) :=
    edge_of_mem_texts hroot (.block .root rfl) htext
  obtain ⟨tree', hincluded⟩ : ∃ tree', source.Included (Scope.top root).inBlock text tree' := by
    refine exists_included_of_edge hentered hedge fun f hf => ?_
    rw [List.mem_singleton.1 hf]
    exact .refl
  refine ⟨tree', objectTree_block (hincluded.objectTree htexts), ?_⟩
  obtain ⟨-, contents', hfile', htree'⟩ := hincluded
  obtain rfl := hfile.unique hfile'
  -- made private again and moved to the root of its file, it is the tree of the file
  let inside := (Scope.top root).enter ((Scope.top root).target text)
  obtain ⟨moved, hmoved, hplain, hmarked⟩ : ∃ moved, source.objectTree inside contents = .ok moved ∧
      Marked.MadePublic (.object moved) (.object tree') := exists_objectTree_of_inBlock htree'
  obtain ⟨alone, halone, hsame⟩ := (relocates_top inside).objectTree hmoved
  obtain rfl : alone = tree := Except.ok.inj (halone.symm.trans htree)
  exact ⟨hplain.trans hsame.symm, hmarked⟩

end Source

/-! ### All of it is public -/

/-- Members are put into an object one after the other. -/
theorem Document.foldl_insertAt_members {members done rest : Members Document}
    (hdistinct : Members.Distinct (done ++ rest))
    (hrest : ∀ member ∈ rest, members.get? member.1 = some member.2) :
    (rest.keys.map fun key => [Step.key key]).foldl
        (fun slot p => ((Document.object members).find? p).elim slot (insertAt · p slot))
        (.object done) = .object (done ++ rest) := by
  induction rest generalizing done with
  | nil => rw [List.append_nil]; rfl
  | cons member rest ih =>
    obtain ⟨key, value⟩ := member
    obtain ⟨hfirst, hothers⟩ := List.forall_mem_cons.1 hrest
    have hfound : (Document.object members).find? [.key key] = some value := by
      rw [find?_cons, child?, hfirst, Option.bind_some, find?_nil]
    have hnew : key ∉ Members.keys done := by
      rw [Members.Distinct, Members.keys, List.map_append] at hdistinct
      exact fun hkey => (List.nodup_append.1 hdistinct).2.2 key hkey key List.mem_cons_self rfl
    rw [Members.keys, List.map_cons, List.map_cons, List.foldl_cons, hfound, Option.elim_some,
      insertAt, insertAt, Document.members, Members.put_eq_append hnew, ← Members.keys]
    rw [List.append_cons done (key, value) rest] at hdistinct ⊢
    exact ih hdistinct hothers

/-- **The subset of an object at all its members** is the object. -/
theorem Document.subset_members {members : Members Document} (h : members.Distinct) :
    (Document.object members).subset (members.keys.map fun key => [.key key]) = .object members :=
  have h' : Members.Distinct ([] ++ members) := h
  foldl_insertAt_members h' fun _ hmember => Members.get?_of_mem h hmember

/-- **Public surroundings only add marks, and add all of them.** Whatever was done before, an object
is expanded to the same progress where everything is public and where nothing is, and either fails
with the same error or gives trees that are the same without their marks; and where everything is
public, everything is marked. So a root file with a public block that includes a file which loads,
and with nothing else, has the configuration of that file, and all of it is public. -/
theorem public_surroundings (env : Environment) :
    (∀ (scope : Scope) (members : Members Document) (progress : Progress env.source),
      SameOutcome (fun tree tree' => Marked.plainMembers tree' = Marked.plainMembers tree ∧
          (Marked.object tree').AllMarked)
        (Load.result (Load.expandObject { scope with isPublic := false } members) progress)
        (Load.result (Load.expandObject { scope with isPublic := true } members) progress) ∧
      Load.after (Load.expandObject { scope with isPublic := true } members) progress =
        Load.after (Load.expandObject { scope with isPublic := false } members) progress) ∧
    ∀ cwd path loaded, (load env cwd path).outcome = .ok loaded →
      ∀ cwd' path' dir dir' value text, env.directory cwd = .ok dir →
        env.directory cwd' = .ok dir' → path' ≠ "" →
        env.source.Holds (dir'.resolve path')
          [(Directive.publicKey, .object [(Directive.includeKey, value)])] →
        Directive.includedTexts value = [text] →
        (dir'.resolve path').parent.resolve text = dir.resolve path →
        ∃ loaded', (load env cwd' path').outcome = .ok loaded' ∧
          loaded'.config = loaded.config ∧ loaded'.publicSubset = loaded'.config := by
  refine ⟨fun scope members progress => ?_, ?_⟩
  · obtain ⟨houtcome, hafter⟩ :=
      Load.inStep_expansion.1 { scope with isPublic := false } members progress
    refine ⟨houtcome.imp fun tree tree' htree => ⟨?_, htree.allMarked⟩, hafter⟩
    have hplain := htree.plain_eq
    rwa [Marked.plain_object, Marked.plain_object, Document.object.injEq] at hplain
  · intro cwd path loaded h cwd' path' dir dir' value text hdir hdir' hpath' hroot htexts htarget
    obtain ⟨-, there, hthere, contents, tree, hfile, htree, rfl⟩ := load_eq_ok_iff.1 h
    obtain rfl : dir = there := Except.ok.inj (hdir.symm.trans hthere)
    have htop : (Scope.top (dir'.resolve path')).target text = dir.resolve path := htarget
    rw [← htop] at hfile htree
    obtain ⟨tree', htree', hpublic⟩ :=
      Source.exists_objectTree_of_publicInclude hroot htexts hfile htree
    refine ⟨_, load_eq_ok_iff.2 ⟨hpath', dir', hdir', _, tree', hroot, htree', rfl⟩, ?_, ?_⟩
    · rw [Loaded.config, Loaded.config, ← Marked.plain_object, ← Marked.plain_object,
        hpublic.plain_eq]
    · have hdistinct := (Source.distinct_tree (Source.tree_object_of_eq_ok htree')).plain
      rw [Marked.plain_object] at hdistinct
      rw [Loaded.publicSubset, Loaded.config, Marked.memberPaths_of_allMarked hpublic.allMarked,
        ← Marked.keys_plainMembers]
      exact Document.subset_members hdistinct.1

/-- A file with an object in an array, and one that includes it from a public block. -/
def publiclyIncludedFiles : MemoryFiles :=
  .ofDocuments [
    ("/a", .object [("#public", .object [("#include", .scalar (.string "b"))])]),
    ("/b", .object [("k", .array [.object [("l", .scalar .null)]])])]

/-- Nothing in the file is public, and all of it is where it is included. -/
theorem publicSubset_of_public_include :
    ∃ loaded loaded',
      (load publiclyIncludedFiles.environment "/" "b").outcome = .ok loaded ∧
      (load publiclyIncludedFiles.environment "/" "a").outcome = .ok loaded' ∧
      loaded.publicSubset = .object [] ∧ loaded'.config = loaded.config ∧
      loaded'.publicSubset = .object [("k", .array [.object [("l", .scalar .null)]])] := by
  let env := publiclyIncludedFiles.environment
  let loaded : Loaded :=
    ⟨[("k", .array [.object [("l", .scalar .null)]])], [], [FilePath.root.resolve "b"]⟩
  have hload : (load env "/" "b").outcome = .ok loaded := by cbv
  have hroot : env.directory "/" = .ok .root := by cbv
  have hholds : env.source.Holds (FilePath.root.resolve "a")
      [("#public", .object [("#include", .scalar (.string "b"))])] := ⟨_, rfl, by cbv⟩
  obtain ⟨-, hinclude⟩ := public_surroundings env
  obtain ⟨loaded', hload', hconfig, hpublic⟩ := hinclude "/" "b" loaded hload "/" "a" .root .root
    (.scalar (.string "b")) "b" hroot hroot (by decide) hholds (by decide) (by cbv)
  exact ⟨loaded, loaded', hload, hload', rfl, hconfig, hpublic.trans hconfig⟩

end ConfigTree
