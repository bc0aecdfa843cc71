import ConfigTree.MemoryFiles
import ConfigTree.Proofs.Rendering

/-!
# Two ways of marking

A member is public when it stands in a public block, and when its key has a mark. A block that has
no directives of its own and no name in common with the other members of its object may be written
into the object, its members before the other ones and with marks, and nothing changes: a load gives
the same configuration, with the same public paths (`ConfigTree.load_inlinesBlocks`).
-/

namespace ConfigTree

/-- **Blocks are written into their objects**, anywhere in a document but in include members. -/
inductive Document.InlinesBlocks : Document → Document → Prop
  | scalar (s : Scalar) : InlinesBlocks (.scalar s) (.scalar s)
  | array {items items' : List Document} : List.Forall₂ InlinesBlocks items items' →
      InlinesBlocks (.array items) (.array items')
  /-- An object is kept, and in its members blocks are written into their objects. -/
  | object {members members' : Members Document} :
      List.Forall₂ (RespelledMember (· = ·) InlinesBlocks) members members' →
      InlinesBlocks (.object members) (.object members')
  /-- The block of the object itself is written into it. -/
  | inlined {d d' : Document} : InlinedBlock InlinesBlocks d d' → InlinesBlocks d d'

/-- A document is one of those that it becomes when blocks are written into their objects: none need
be. -/
theorem Document.InlinesBlocks.refl (d : Document) : InlinesBlocks d d := by
  induction d using Document.induction with
  | scalar s => exact .scalar s
  | array items ih => exact .array (List.forall₂_same.2 ih)
  | object members ih =>
    exact .object (List.forall₂_same.2 fun member hmember => .refl rfl (ih member hmember))

/-- **Writing blocks into their objects is a respelling**, under which marks stay what they are. -/
theorem respelling_inlinesBlocks : Respelling (· = ·) (· = ·) Document.InlinesBlocks where
  closed := Marked.orClosed_eq
  keys := keyRespelling_eq Marked.orClosed_eq
  scalar h := by
    cases h with
    | scalar => rfl
    | inlined hinlined => cases hinlined
  array h := by
    cases h with
    | array hitems => exact ⟨_, rfl, hitems⟩
    | inlined hinlined => cases hinlined
  object h := by
    cases h with
    | object hmembers => exact ⟨_, rfl, Or.inl hmembers⟩
    | inlined hinlined =>
      cases hinlined with
      | intro hsome hinclude hpublic hapart hkept hgone hordinary hblock hown =>
        exact ⟨_, rfl, Or.inr
          (.intro hsome hinclude hpublic hapart hkept hgone hordinary hblock hown)⟩

/-- **The two ways of marking agree.** When blocks are written into their objects in the files of a
load, it gives the same configuration, with the same public paths, from the same files, and asks for
the same paths. -/
theorem load_inlinesBlocks {env : Environment} {other : Source} {cwd path : String}
    {loaded : Loaded} (h : (load env cwd path).outcome = .ok loaded)
    (hfiles : ∀ file ∈ loaded.files, ∃ d d', env.source.document file = .ok d ∧
      other.document file = .ok d' ∧ Document.InlinesBlocks d d') :
    (load { env with source := other } cwd path).outcome = .ok loaded ∧
      (load { env with source := other } cwd path).reads = (load env cwd path).reads := by
  obtain ⟨loaded', h', hagrees, hreads⟩ := respelling_inlinesBlocks.load h hfiles
  obtain ⟨t, t', hplain, hplain', ht, ht', hagree, hpaths, hpaths'⟩ := hagrees.trees
  have hpublic : loaded'.publicPaths = loaded.publicPaths := by
    rw [hpaths, hpaths', hagree.publicPaths_eq (hplain.trans hplain'.symm) ht ht']
  refine ⟨h'.trans (congrArg Except.ok ?_), hreads⟩
  obtain ⟨members, publicPaths, files⟩ := loaded
  obtain ⟨members', publicPaths', files'⟩ := loaded'
  obtain rfl : members' = members := hagrees.members_eq
  obtain rfl : publicPaths' = publicPaths := hpublic
  obtain rfl : files' = files := hagrees.files_eq
  rfl

set_option maxRecDepth 4000 in
/-- The member of a block is written before the one that stood before the block. -/
theorem load_of_inlined_block :
    ∃ loaded : Loaded,
      (load (MemoryFiles.ofDocuments [("/a", .object [("n", .scalar .null),
        ("#public", .object [("k", .array [.scalar .null])])])]).environment "/" "a").outcome =
          .ok loaded ∧
      (load (MemoryFiles.ofDocuments [("/a", .object [("k#public", .array [.scalar .null]),
        ("n", .scalar .null)])]).environment "/" "a").outcome = .ok loaded ∧
      loaded.publicPaths = [[.key "k"]] := by
  let d : Document := .object [("n", .scalar .null),
    ("#public", .object [("k", .array [.scalar .null])])]
  let d' : Document := .object [("k#public", .array [.scalar .null]), ("n", .scalar .null)]
  let files : MemoryFiles := .ofDocuments [("/a", d)]
  let files' : MemoryFiles := .ofDocuments [("/a", d')]
  let root := FilePath.root.resolve "a"
  let loaded : Loaded :=
    ⟨[("k", .array [.scalar .null]), ("n", .scalar .null)], [[.key "k"]], [root]⟩
  have hload : (load files.environment "/" "a").outcome = .ok loaded := by cbv
  have hd : files.source.document root = .ok d := Source.document_eq_ok_iff.2 ⟨_, rfl, by cbv⟩
  have hd' : files'.source.document root = .ok d' := Source.document_eq_ok_iff.2 ⟨_, rfl, by cbv⟩
  have hwrites : Directive.WritesMark "k" "k#public" :=
    ⟨by decide, Or.inr ⟨by decide, by decide⟩⟩
  have hinlined : InlinedBlock Document.InlinesBlocks d d' := by
    refine .intro rfl rfl rfl ?_ rfl rfl rfl (.cons (.other (by decide) hwrites (.refl _)) .nil)
      (.cons (.refl rfl (.refl _)) .nil)
    rintro member hmember other hother ⟨name, hname, hname'⟩
    obtain rfl := List.mem_singleton.1 hmember
    obtain rfl := List.mem_singleton.1 hother
    exact absurd ((Directive.isName_iff.1 hname).trans (Directive.isName_iff.1 hname').symm)
      (by decide)
  obtain ⟨hload', -⟩ := load_inlinesBlocks hload fun file hfile => by
    obtain rfl := List.mem_singleton.1 hfile
    exact ⟨d, d', hd, hd', .inlined hinlined⟩
  exact ⟨loaded, hload, hload', rfl⟩

end ConfigTree
