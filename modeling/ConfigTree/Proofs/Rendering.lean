import ConfigTree.Proofs.Respelling
import ConfigTree.Proofs.Transfer

/-!
# Respelled documents are expanded alike

Where a document expands, every respelling of it does, in a source that holds respellings of all
files that are visited on the way. The two trees have the same plain document; where they stand in
the same surroundings they agree on what is public; and the two walks come to the same files
(`ConfigTree.Source.renders_of_respelling`). So a load succeeds for the respelled files as it does
for the original ones (`ConfigTree.Respelling.load`).

The scopes of the two expansions are in the same file under the same files, but one of them may be
public alone: the members of a public block are public by their surroundings, and where they are
written into the object, by their keys. Below such a member the trees need not agree on anything but
the plain document.
-/

namespace ConfigTree

/-- **Scopes beside each other** are in the same file, and the same files led to it. -/
structure Scope.Beside (scope scope' : Scope) : Prop where
  file_eq : scope'.file = scope.file
  above_eq : scope'.above = scope.above

namespace Scope.Beside

variable {scope scope' : Scope} (h : scope.Beside scope')

include h

theorem chain_eq : scope'.chain = scope.chain := by
  rw [chain, chain, h.file_eq, h.above_eq]

theorem target_eq (text : String) : scope'.target text = scope.target text := by
  rw [target, target, h.file_eq]

theorem member (name : String) : (scope.member name).Beside (scope'.member name) :=
  ⟨h.file_eq, h.above_eq⟩

theorem item (i : Nat) : (scope.item i).Beside (scope'.item i) :=
  ⟨h.file_eq, h.above_eq⟩

theorem inBlock : scope.inBlock.Beside scope'.inBlock :=
  ⟨h.file_eq, h.above_eq⟩

theorem inBlock_left : scope.inBlock.Beside scope' :=
  ⟨h.file_eq, h.above_eq⟩

theorem enter (path : FilePath) : (scope.enter path).Beside (scope'.enter path) :=
  ⟨rfl, h.chain_eq⟩

end Scope.Beside

namespace Source

open Marked

variable {R : Bool → Bool → Prop} {K : String → String → Prop} {D : Document → Document → Prop}
  {source other : Source} {scope scope' : Scope} {members members' : Members Document}

/-- **A file is respelled**: the one source holds a document in it, the other one a respelling. -/
def Respells (source other : Source) (D : Document → Document → Prop) (path : FilePath) : Prop :=
  ∃ d d', source.document path = .ok d ∧ other.document path = .ok d' ∧ D d d'

theorem Respells.holds {path : FilePath} {contents : Members Document}
    (h : Respells source other D path) (hD : Respelling R K D)
    (hholds : source.Holds path contents) :
    ∃ contents', other.Holds path contents' ∧ D (.object contents) (.object contents') := by
  obtain ⟨d, d', hd, hd', hrelated⟩ := h
  obtain rfl := Except.ok.inj ((holds_iff.1 hholds).symm.trans hd)
  obtain ⟨contents', rfl, -⟩ := hD.object hrelated
  exact ⟨contents', holds_iff.2 hd', hrelated⟩

/-- **The respelling is rendered alike**: it has a tree that resembles that of the document, and the
walks from both come to the same files. -/
def Renders (R : Bool → Bool → Prop) (source other : Source) (scope scope' : Scope)
    (d d' : Document) (node : Marked) : Prop :=
  ∃ node', other.tree scope' d' = .ok node' ∧
    Resembles R (scope.isPublic = scope'.isPublic) node node' ∧
    SameWalk source other scope.file d d'

/-- Every respelling of the document is rendered alike, where the document expands. -/
def Renderable (R : Bool → Bool → Prop) (D : Document → Document → Prop) (source other : Source)
    (scope scope' : Scope) (d : Document) : Prop :=
  ∀ d' node, D d d' → source.tree scope d = .ok node → Renders R source other scope scope' d d' node

/-- The files at these paths hold objects that are respelled, and every respelling of them is
rendered alike, unless the file is one of those that led here. -/
def RenderableFiles (R : Bool → Bool → Prop) (D : Document → Document → Prop)
    (source other : Source) (scope scope' : Scope) (texts : List String) : Prop :=
  ∀ text ∈ texts, ∀ contents, scope.target text ∉ scope.chain →
    source.Holds (scope.target text) contents → ∃ contents',
      other.Holds (scope.target text) contents' ∧ D (.object contents) (.object contents') ∧
      Renderable R D source other (scope.enter (scope.target text))
        (scope'.enter (scope.target text)) (.object contents)

/-! ### Induction -/

/-- Induction along expansions, where an object may also use what is known of the members of its
public block. -/
theorem expansion_induction_block (source : Source) {motive : Scope → Document → Prop}
    (scalar : ∀ scope s, motive scope (.scalar s))
    (array : ∀ scope items, (∀ i item, items[i]? = some item → motive (scope.item i) item) →
      motive scope (.array items))
    (object : ∀ scope members,
      (∀ text contents, scope.target text ∉ scope.chain →
        source.Holds (scope.target text) contents →
          motive (scope.enter (scope.target text)) (.object contents)) →
      (∀ block, members.get? Directive.publicKey = some (.object block) →
        motive scope.inBlock (.object block) ∧ ∀ member ∈ Directive.ordinary block,
          motive (scope.inBlock.member (Directive.name member.1)) member.2) →
      (∀ member ∈ Directive.ordinary members,
        motive (scope.member (Directive.name member.1)) member.2) →
      motive scope (.object members)) (scope : Scope) (d : Document) : motive scope d := by
  have hparts : motive scope d ∧ ∀ members, d = .object members →
      ∀ member ∈ Directive.ordinary members,
        motive (scope.member (Directive.name member.1)) member.2 := by
    induction scope, d using expansion_induction source with
    | scalar scope s => exact ⟨scalar scope s, nofun⟩
    | array scope items ih =>
      exact ⟨array scope items fun i item hitem => (ih i item hitem).1, nofun⟩
    | object scope members hincluded hblock hown =>
      refine ⟨object scope members (fun text contents hnew hholds =>
        (hincluded text contents hnew hholds).1) (fun block hb => ?_)
        fun member hmember => (hown member hmember).1, ?_⟩
      · exact ⟨(hblock block hb).1, (hblock block hb).2 block rfl⟩
      · rintro _ ⟨⟩ member hmember
        exact (hown member hmember).1
  exact hparts.1

/-! ### From parts to the whole -/

theorem renders_array (hR : OrClosed R) {items items' : List Document} {node : Marked}
    (hitems : List.Forall₂ D items items') (hnode : source.tree scope (.array items) = .ok node)
    (hparts : ∀ i item, items[i]? = some item →
      Renderable R D source other (scope.item i) (scope'.item i) item) :
    Renders R source other scope scope' (.array items) (.array items') node := by
  obtain ⟨nodes, nodes', rfl, hnode', hresembles⟩ :=
    exists_trees_of_array hnode hitems fun i item item' hitem hd node hnode => by
      obtain ⟨node', hnode', hresembles, -⟩ := hparts i item hitem item' node hd hnode
      exact (⟨node', hnode', hresembles⟩ : ∃ node', other.tree (scope'.item i) item' = .ok node' ∧
        Resembles R (scope.isPublic = scope'.isPublic) node node')
  obtain ⟨walk, hwalk, hwalk'⟩ : ∃ walk, source.WalksAll scope.file items walk ∧
      other.WalksAll scope.file items' walk := by
    obtain ⟨_, ⟨⟩, hlength, hnodes⟩ := tree_array_eq_ok_iff.1 hnode
    obtain ⟨hlength', hrelated⟩ := List.forall₂_iff_get.1 hitems
    refine exists_walksAll (List.forall₂_iff_get.2 ⟨hlength', fun i hi hi' => ?_⟩)
    have hitem : items[i]? = some items[i] := List.getElem?_eq_getElem hi
    obtain ⟨-, -, -, hwalks⟩ := hparts i _ hitem _ _ (hrelated i hi hi')
      (hnodes i _ _ hitem (List.getElem?_eq_getElem (hlength ▸ hi)))
    exact hwalks
  exact ⟨_, hnode', resembles_array hR hresembles, walk, .array hwalk, .array hwalk'⟩

/-- **Members of the same names** are expanded alike, if their marks are related in a way that
decides how far the entries agree. -/
theorem exists_entries {M : Bool → Bool → Prop} {same : Prop} {own : Members (Bool × Marked)}
    (hmark : ∀ {a b : Bool} {node node' : Marked}, M a b →
      Resembles R (scope.isPublic = scope'.isPublic) node node' → same →
      Agree R (a || scope.isPublic, node) (b || scope'.isPublic, node'))
    (h : List.Forall₂ (SameName M D) members members')
    (hentries : List.Forall₂ (source.Entry scope) members own)
    (hvalues : ∀ member ∈ members, Renderable R D source other
      (scope.member (Directive.name member.1)) (scope'.member (Directive.name member.1)) member.2) :
    ∃ own', List.Forall₂ (other.Entry scope') members' own' ∧
      List.Forall₂ (ResemblesMember R same) own own' ∧
      List.Forall₂ (SameWalk source other scope.file) (members.map Prod.snd)
        (members'.map Prod.snd) := by
  induction h generalizing own with
  | nil =>
    cases hentries
    exact ⟨[], .nil, .nil, .nil⟩
  | @cons member member' _ _ hmember _ ih =>
    obtain ⟨hfirst, hrest⟩ := List.forall_mem_cons.1 hvalues
    cases hentries with
    | @cons _ entry _ _ hentry hentries =>
      obtain ⟨own', hown', hresembles, hwalks⟩ := ih hentries hrest
      obtain ⟨name, mark, node⟩ := entry
      obtain ⟨hname, hmarked, hnode⟩ := hentry
      dsimp only at hname hmarked
      subst hname hmarked
      obtain ⟨node', hnode', hsame, hwalk⟩ := hfirst _ _ hmember.value hnode
      refine ⟨(_, _, node') :: own', .cons ⟨hmember.name_eq.symm, rfl, ?_⟩ hown',
        .cons ⟨rfl, hsame.plain_eq, hmark hmember.mark hsame⟩ hresembles, .cons hwalk hwalks⟩
      rw [hmember.name_eq]
      exact hnode'

/-- **Included files** are expanded alike. -/
theorem exists_included {texts : List String} {trees : List (Members (Bool × Marked))}
    (hbeside : scope.Beside scope') (htrees : List.Forall₂ (source.Included scope) texts trees)
    (hfiles : RenderableFiles R D source other scope scope' texts) :
    ∃ trees', List.Forall₂ (other.Included scope') texts trees' ∧
      List.Forall₂ (fun tree tree' => Resembles R (scope.isPublic = scope'.isPublic)
        (.object tree) (.object tree')) trees trees' ∧
      ∀ text ∈ texts, SameWalkFrom source other (scope.target text) := by
  induction htrees with
  | nil => exact ⟨[], .nil, .nil, by simp⟩
  | @cons text tree _ _ htree _ ih =>
    obtain ⟨hfirst, hrest⟩ := List.forall_mem_cons.1 hfiles
    obtain ⟨trees', htrees', hresembles, hwalks⟩ := ih hrest
    obtain ⟨hnew, contents, hholds, htree⟩ := htree
    obtain ⟨contents', hholds', hrelated, hrenderable⟩ := hfirst contents hnew hholds
    obtain ⟨node', hnode', hsame, hwalk⟩ :=
      hrenderable _ _ hrelated (tree_object_of_eq_ok htree)
    obtain ⟨tree', rfl, htree'⟩ := tree_object_eq_ok_iff.1 hnode'
    refine ⟨tree' :: trees', .cons ?_ htrees', .cons hsame hresembles,
      List.forall_mem_cons.2 ⟨⟨contents, contents', hholds, hholds', hwalk⟩, hwalks⟩⟩
    rw [Included, hbeside.target_eq, hbeside.chain_eq]
    exact ⟨hnew, contents', hholds', htree'⟩

/-- **A public block** is expanded like its respelling, and whatever surrounds the object, all in it
is public. -/
theorem exists_block {block : Members (Bool × Marked)}
    (h : source.blockTree scope members = .ok block)
    (hpublic : members.get? Directive.publicKey = none ∧
        members'.get? Directive.publicKey = none ∨
      ∃ d d', members.get? Directive.publicKey = some d ∧
        members'.get? Directive.publicKey = some d' ∧ D d d')
    (hobject : ∀ {contents d'}, D (.object contents) d' → ∃ contents', d' = .object contents')
    (hblock : ∀ contents, members.get? Directive.publicKey = some (.object contents) →
      Renderable R D source other scope.inBlock scope'.inBlock (.object contents))
    (hR : OrClosed R) :
    ∃ block', other.blockTree scope' members' = .ok block' ∧
      Resembles R True (.object block) (.object block') ∧
      List.Forall₂ (SameWalk source other scope.file)
        (members.get? Directive.publicKey).toList (members'.get? Directive.publicKey).toList := by
  rcases hpublic with ⟨hnone, hnone'⟩ | ⟨d, d', hsome, hsome', hrelated⟩
  · rcases blockTree_eq_ok_iff.1 h with ⟨-, rfl⟩ | ⟨contents, hcontents, -⟩
    · rw [hnone, hnone']
      exact ⟨[], blockTree_eq_ok_iff.2 (Or.inl ⟨hnone', rfl⟩), resembles_object hR .nil, .nil⟩
    · cases hnone.symm.trans hcontents
  · rcases blockTree_eq_ok_iff.1 h with ⟨hnone, -⟩ | ⟨contents, hcontents, htree⟩
    · cases hnone.symm.trans hsome
    · obtain rfl := Option.some.inj (hcontents.symm.trans hsome)
      obtain ⟨contents', rfl⟩ := hobject hrelated
      obtain ⟨node', hnode', hresembles, hwalk⟩ :=
        hblock contents hcontents _ _ hrelated (tree_object_of_eq_ok htree)
      obtain ⟨block', rfl, htree'⟩ := tree_object_eq_ok_iff.1 hnode'
      rw [hsome, hsome']
      exact ⟨block', blockTree_eq_ok_iff.2 (Or.inr ⟨contents', hsome', htree'⟩),
        hresembles.imp fun _ => rfl, .cons hwalk .nil⟩

/-- An object without directives is expanded member by member. -/
theorem objectTree_eq_ok_of_plain {tree : Members (Bool × Marked)}
    (hinclude : members.get? Directive.includeKey = none)
    (hpublic : members.get? Directive.publicKey = none)
    (h : source.objectTree scope members = .ok tree) :
    (members.keys.map Directive.name).Nodup ∧
      List.Forall₂ (source.Entry scope) members tree := by
  obtain ⟨trees, block, own, htrees, hblock, hnames, hentries, rfl⟩ := objectTree_eq_ok_iff.1 h
  rw [Directive.ordinary_eq_self hinclude hpublic] at hnames hentries
  rw [Directive.texts, hinclude, Option.elim_none, List.forall₂_nil_left_iff] at htrees
  rcases blockTree_eq_ok_iff.1 hblock with ⟨-, rfl⟩ | ⟨contents, hcontents, -⟩
  · rw [htrees, List.foldl_nil, mergeMembers_nil, mergeMembers_nil]
    exact ⟨hnames, hentries⟩
  · cases hpublic.symm.trans hcontents

/-- A public block without directives is expanded member by member. -/
theorem blockTree_eq_ok_of_plain {block : Members Document} {entries : Members (Bool × Marked)}
    (hsome : members.get? Directive.publicKey = some (.object block))
    (hinclude : block.get? Directive.includeKey = none)
    (hpublic : block.get? Directive.publicKey = none)
    (h : source.blockTree scope members = .ok entries) :
    (block.keys.map Directive.name).Nodup ∧
      List.Forall₂ (source.Entry scope.inBlock) block entries := by
  rcases blockTree_eq_ok_iff.1 h with ⟨hnone, -⟩ | ⟨contents, hcontents, htree⟩
  · cases hnone.symm.trans hsome
  · cases hcontents.symm.trans hsome
    exact objectTree_eq_ok_of_plain hinclude hpublic htree

/-- The mark of a member and of its surroundings, where marks are related. -/
theorem agree_own (hR : OrClosed R) {a b : Bool} {node node' : Marked} (hmark : R a b)
    (h : Resembles R (scope.isPublic = scope'.isPublic) node node')
    (hsame : scope.isPublic = scope'.isPublic) :
    Agree R (a || scope.isPublic, node) (b || scope'.isPublic, node') :=
  (h.agree hsame).withMarks (hR.or hmark (hsame ▸ hR.refl _))

/-- A member of a public block is public, and so is the same member with a mark outside it. -/
theorem agree_inside (hR : OrClosed R) {a b : Bool} {node node' : Marked} (hmark : b = true) :
    Agree R (a || scope.inBlock.isPublic, node) (b || scope'.isPublic, node') := by
  have hpublic : (a || scope.inBlock.isPublic) = true := Bool.or_true a
  rw [hmark, Bool.true_or, hpublic]
  exact .intro (hR.refl true) nofun

/-- Members without a name in common have different names. -/
theorem names_disjoint {others : Members Document}
    (h : ∀ member ∈ members, ∀ other ∈ others,
      ¬∃ name, Directive.IsName member.1 name ∧ Directive.IsName other.1 name) :
    ∀ name ∈ members.keys.map Directive.name, name ∉ others.keys.map Directive.name := by
  intro name hname hother
  simp only [Members.keys, List.map_map, List.mem_map, Function.comp_apply] at hname hother
  obtain ⟨member, hmember, rfl⟩ := hname
  obtain ⟨other, hother, heq⟩ := hother
  exact h member hmember other hother
    ⟨_, Directive.isName_iff.2 rfl, Directive.isName_iff.2 heq⟩

section Object

variable (h : Respelling R K D) (hbeside : scope.Beside scope')
  {tree : Members (Bool × Marked)} (htree : source.objectTree scope members = .ok tree)
  (hfiles : RenderableFiles R D source other scope scope' (Directive.texts members))
  (hown : ∀ member ∈ Directive.ordinary members, Renderable R D source other
    (scope.member (Directive.name member.1)) (scope'.member (Directive.name member.1)) member.2)

include h hbeside htree hfiles hown

/-- **An object respelled member by member** is rendered alike. -/
theorem renders_object_of_respelled
    (hmembers : List.Forall₂ (RespelledMember K D) members members')
    (hblock : ∀ contents, members.get? Directive.publicKey = some (.object contents) →
      Renderable R D source other scope.inBlock scope'.inBlock (.object contents)) :
    Renders R source other scope scope' (.object members) (.object members') (.object tree) := by
  obtain ⟨trees, block, own, htrees, hb, hnames, hentries, rfl⟩ := objectTree_eq_ok_iff.1 htree
  have hinclude := get?_include_of_respelled h.keys hmembers
  have hsame : List.Forall₂ (SameName R D) (Directive.ordinary members)
      (Directive.ordinary members') :=
    sameName_of_respelled (fun hrel => ⟨h.keys.name_eq hrel, h.keys.mark hrel⟩)
      (fun member hmember => (Directive.mem_ordinary.1 hmember).2.1)
      (ordinary_of_respelled h.keys hmembers)
  obtain ⟨trees', htrees', hfiles', hwalks⟩ := exists_included hbeside htrees hfiles
  obtain ⟨block', hb', hpublic, hwalk⟩ := exists_block hb
    (get?_public_of_respelled h.keys hmembers)
    (fun hrelated => (h.object hrelated).imp fun _ hd => hd.1) hblock h.closed
  obtain ⟨own', hown', hresembles, hwalk'⟩ :=
    exists_entries (agree_own h.closed) hsame hentries hown
  obtain ⟨walk, hparts, hparts'⟩ := exists_walksAll (List.rel_append hwalk hwalk')
  have htexts : Directive.texts members' = Directive.texts members :=
    Directive.texts_congr hinclude
  refine ⟨_, tree_object_of_eq_ok (objectTree_eq_ok_iff.2 ⟨trees', block', own', htexts ▸ htrees',
    hb', names_of_sameName hsame ▸ hnames, hown', rfl⟩), ?_,
    sameWalk_object hinclude hwalks hparts hparts'⟩
  refine resembles_mergeMembers h.closed (resembles_mergeMembers h.closed ?_ ?_) ?_
  · exact resembles_foldl h.closed hfiles' (resembles_object h.closed .nil)
  · exact hpublic.imp fun _ => trivial
  · exact resembles_object h.closed hresembles

/-- **An object with its block written into it** is rendered alike. -/
theorem renders_object_of_inlined (hinlined : InlinedBlock D (.object members) (.object members'))
    (hinside : ∀ block, members.get? Directive.publicKey = some (.object block) →
      ∀ member ∈ Directive.ordinary block, Renderable R D source other
        (scope.inBlock.member (Directive.name member.1))
        (scope'.member (Directive.name member.1)) member.2) :
    Renders R source other scope scope' (.object members) (.object members') (.object tree) := by
  obtain @⟨_, _, block, inside, rest, hsome, hnoInclude, hnoPublic, hapart, hinclude, hgone,
    hordinary, hblock, hrest⟩ := hinlined
  obtain ⟨trees, entries, own, htrees, hb, hnames, hentries, rfl⟩ := objectTree_eq_ok_iff.1 htree
  obtain ⟨hnames', hentries'⟩ := blockTree_eq_ok_of_plain hsome hnoInclude hnoPublic hb
  have hplain := Directive.ordinary_eq_self hnoInclude hnoPublic
  have hdisjoint : ∀ name ∈ block.keys.map Directive.name,
      name ∉ (Directive.ordinary members).keys.map Directive.name :=
    names_disjoint hapart
  -- the members of the block, and after them the other ones
  have hmarked : List.Forall₂ (SameName (fun _ mark => mark = true) D) block inside :=
    sameName_of_respelled Directive.WritesMark.name_eq (fun member hmember =>
      (Directive.mem_ordinary.1 (hplain.symm ▸ hmember)).2.1) hblock
  have hsame : List.Forall₂ (SameName R D) (Directive.ordinary members) rest :=
    sameName_of_respelled (K := (· = ·)) (fun hkey => hkey ▸ ⟨rfl, h.closed.refl _⟩)
      (fun member hmember => (Directive.mem_ordinary.1 hmember).2.1) hrest
  obtain ⟨trees', htrees', hfiles', hwalks⟩ := exists_included hbeside htrees hfiles
  obtain ⟨inside', hinside', hresembles, hwalk⟩ :=
    exists_entries (fun hmark _ _ => agree_inside h.closed hmark) hmarked hentries'
      (hplain ▸ hinside block hsome)
  obtain ⟨own', hown', hresembles', hwalk'⟩ :=
    exists_entries (agree_own h.closed) hsame hentries hown
  have hnamesAll : ((Directive.ordinary members').keys.map Directive.name).Nodup := by
    rw [hordinary, Members.keys, List.map_append, List.map_append, ← Members.keys, ← Members.keys,
      names_of_sameName hmarked, names_of_sameName hsame]
    exact List.nodup_append.2 ⟨hnames', hnames, fun name hname _ hother heq =>
      hdisjoint name hname (heq ▸ hother)⟩
  have htexts : Directive.texts members' = Directive.texts members :=
    Directive.texts_congr hinclude
  refine ⟨_, tree_object_of_eq_ok (objectTree_eq_ok_iff.2 ⟨trees', [], inside' ++ own',
    htexts ▸ htrees', blockTree_eq_ok_iff.2 (Or.inl ⟨hgone, rfl⟩), hnamesAll,
    hordinary ▸ List.rel_append hinside' hown', rfl⟩), ?_, sameWalk_inlined hsome hnoInclude
      hnoPublic hinclude hgone hordinary hwalks hwalk hwalk'⟩
  rw [mergeMembers_append, mergeMembers_nil_right]
  · refine resembles_mergeMembers h.closed ?_ ?_
    · exact resembles_foldl h.closed hfiles' (resembles_object h.closed .nil)
    · exact resembles_object h.closed (List.rel_append hresembles hresembles')
  · rwa [keys_of_entries hentries, keys_of_entries hentries']

end Object

/-- **Every respelling is rendered alike** where the document expands, if all files that are visited
on the way are respelled. -/
theorem renders_of_respelling (h : Respelling R K D) {d d' : Document} {node : Marked}
    (hbeside : scope.Beside scope') (hrelated : D d d') (hnode : source.tree scope d = .ok node)
    (hfiles : ∀ path ∈ Load.visits (Load.expand scope d : Load source _),
      Respells source other D path) : Renders R source other scope scope' d d' node := by
  induction scope, d using expansion_induction_block source generalizing scope' d' node with
  | scalar scope s =>
    rw [tree_scalar, Except.ok.injEq] at hnode
    rw [h.scalar hrelated, ← hnode]
    exact ⟨_, tree_scalar s, resembles_scalar h.closed s, [], .scalar s, .scalar s⟩
  | array scope items ih =>
    obtain ⟨items', rfl, hitems⟩ := h.array hrelated
    refine renders_array h.closed hitems hnode fun i item hitem d' node hd hitemTree => ?_
    exact ih i item hitem (hbeside.item i) hd hitemTree fun path hpath =>
      hfiles path (mem_visits_of_item hnode hitem hpath)
  | object scope members hincluded hblock hown =>
    obtain ⟨members', rfl, hmembers⟩ := h.object hrelated
    obtain ⟨tree, rfl, htree⟩ := tree_object_eq_ok_iff.1 hnode
    have hincludedFiles :
        RenderableFiles R D source other scope scope' (Directive.texts members) := by
      intro text htext contents hnew hholds
      obtain ⟨contents', hholds', hcontents⟩ :=
        (hfiles _ (mem_visits_of_included hnode htext hholds (Or.inl rfl))).holds h hholds
      exact ⟨contents', hholds', hcontents, fun d' node hd hinner =>
        hincluded text contents hnew hholds (hbeside.enter _) hd hinner fun path hpath =>
          hfiles path (mem_visits_of_included hnode htext hholds (Or.inr hpath))⟩
    have hownMembers : ∀ member ∈ Directive.ordinary members, Renderable R D source other
        (scope.member (Directive.name member.1)) (scope'.member (Directive.name member.1))
        member.2 := fun member hmember d' node hd hvalue =>
      hown member hmember (hbeside.member _) hd hvalue fun path hpath =>
        hfiles path (mem_visits_of_member hnode hmember hpath)
    rcases hmembers with hmembers | hinlined
    · refine renders_object_of_respelled h hbeside htree hincludedFiles hownMembers hmembers ?_
      exact fun contents hcontents d' node hd hinner =>
        (hblock contents hcontents).1 hbeside.inBlock hd hinner fun path hpath =>
          hfiles path (mem_visits_of_block hnode hcontents hpath)
    · refine renders_object_of_inlined h hbeside htree hincludedFiles hownMembers hinlined ?_
      intro block hb member hmember d' node hd hvalue
      obtain ⟨-, hobject, -⟩ := expands_object_iff.1 ⟨_, hnode⟩
      obtain ⟨_, -, inner, hinner⟩ := hobject _ hb
      exact (hblock block hb).2 member hmember (hbeside.inBlock_left.member _) hd hvalue
        fun path hpath => hfiles path
          (mem_visits_of_block hnode hb (mem_visits_of_member hinner hmember hpath))

end Source

/-! ### Loads -/

/-- **Two configurations that agree**: they hold the same, come from the same files, and their
public paths are those of trees that agree on what is public. -/
structure Loaded.Agrees (R : Bool → Bool → Prop) (loaded loaded' : Loaded) : Prop where
  members_eq : loaded'.members = loaded.members
  files_eq : loaded'.files = loaded.files
  trees : ∃ t t' : Marked, t.plain = loaded.config ∧ t'.plain = loaded.config ∧
    t.Distinct ∧ t'.Distinct ∧ Marked.Agree R (false, t) (false, t') ∧
    loaded.publicPaths = t.publicPaths ∧ loaded'.publicPaths = t'.publicPaths

/-- **A load of respelled files** succeeds as the load of the original ones does, asks for the same
paths, and gives a configuration that agrees with the original one. -/
theorem Respelling.load {R : Bool → Bool → Prop} {K : String → String → Prop}
    {D : Document → Document → Prop} (h : Respelling R K D) {env : Environment} {other : Source}
    {cwd path : String} {loaded : Loaded} (hload : (load env cwd path).outcome = .ok loaded)
    (hfiles : ∀ file ∈ loaded.files, Source.Respells env.source other D file) :
    ∃ loaded', (ConfigTree.load { env with source := other } cwd path).outcome = .ok loaded' ∧
      loaded.Agrees R loaded' ∧
      (ConfigTree.load { env with source := other } cwd path).reads =
        (ConfigTree.load env cwd path).reads := by
  obtain ⟨hpath, dir, hdir, contents, tree, hholds, htree, rfl⟩ := load_eq_ok_iff.1 hload
  have hnode := Source.tree_object_of_eq_ok htree
  have hvisited (file : FilePath) (hfile : file = dir.resolve path ∨
      file ∈ Load.visits (Load.expand (.top (dir.resolve path)) (.object contents) :
        Load env.source _)) : Source.Respells env.source other D file :=
    hfiles file (Source.mem_visited hholds hfile hnode)
  obtain ⟨contents', hholds', hrelated⟩ := (hvisited _ (Or.inl rfl)).holds h hholds
  obtain ⟨node', hnode', hresembles, walk, hwalk, hwalk'⟩ :=
    Source.renders_of_respelling h ⟨rfl, rfl⟩ hrelated hnode fun file hfile =>
      hvisited file (Or.inr hfile)
  obtain ⟨tree', rfl, htree'⟩ := Source.tree_object_eq_ok_iff.1 hnode'
  have hload' : (ConfigTree.load { env with source := other } cwd path).outcome =
      .ok ⟨Marked.plainMembers tree', Marked.memberPaths tree', other.visited (dir.resolve path)⟩ :=
    load_eq_ok_iff.2 ⟨hpath, dir, hdir, contents', tree', hholds', htree', rfl⟩
  have hvisits : other.visited (dir.resolve path) = env.source.visited (dir.resolve path) := by
    rw [Source.visited_eq_walk hholds htree hwalk, Source.visited_eq_walk hholds' htree' hwalk']
  have hplain : Document.object (Marked.plainMembers tree') =
      .object (Marked.plainMembers tree) := by
    rw [← Marked.plain_object, ← Marked.plain_object, hresembles.plain_eq]
  refine ⟨_, hload', ⟨Document.object.inj hplain, hvisits, .object tree, .object tree', ?_⟩, ?_⟩
  · exact ⟨Marked.plain_object tree, hresembles.plain_eq.symm.trans (Marked.plain_object tree),
      Source.distinct_tree hnode, Source.distinct_tree hnode', hresembles.agree rfl,
      (Marked.publicPaths_object tree).symm, (Marked.publicPaths_object tree').symm⟩
  · rw [← (load_accounted _ cwd path).files_eq _ hload',
      ← (load_accounted env cwd path).files_eq _ hload]
    exact hvisits

end ConfigTree
