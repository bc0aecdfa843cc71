import ConfigTree.MemoryFiles
import ConfigTree.Proofs.PublicSubset
import ConfigTree.Proofs.Visits

/-!
# Where public members come from

A part of a file **occurs** at a place of the merged tree (`ConfigTree.Source.Occurs`): the root
file stands at the root, a member below its object by its name, an item below its array by its
index, a public block where its object stands, and an included file where the object that
includes it stands. Along with the place goes whether the surroundings are public: inside a
public block they are, and an included file has the surroundings of the object that includes
it.

Public paths and marked members correspond (`ConfigTree.publicPaths_provenance`). Every public
path is the place of a marked member of a file that was read, because a merge only has marks
and values of its sides (`ConfigTree.Source.Traces.tree`). Conversely a mark can only be lost
when something above it is replaced. When all members above it are objects, in whatever file,
nothing is, and some public path covers the marked member
(`ConfigTree.Source.Occurs.arrives`).
-/

namespace ConfigTree

open ValuePath

/-- A member is public by the mark of its key or by its surroundings. -/
def Directive.Publishes (key : String) (isPublic : Bool) : Prop :=
  (∃ stem, IsMarkedAs key stem) ∨ isPublic = true

theorem Directive.publishes_iff {key : String} {isPublic : Bool} :
    Publishes key isPublic ↔ (isMarked key || isPublic) = true := by
  rw [Publishes, Bool.or_eq_true, isMarked_eq_true_iff]

namespace Source

/-- **Occurrences**: the live parts of the files of a load, by the file, the place in the merged
tree, and whether the surroundings are public. -/
inductive Occurs (source : Source) (root : FilePath) :
    FilePath → ValuePath → Bool → Document → Prop
  /-- The root file stands at the root. -/
  | root {contents : Members Document} : source.Holds root contents →
      Occurs source root root .root false (.object contents)
  /-- A public block stands where its object does, and all in it is public. -/
  | block {file : FilePath} {place : ValuePath} {isPublic : Bool} {members : Members Document}
      {d : Document} : Occurs source root file place isPublic (.object members) →
      members.get? Directive.publicKey = some d → Occurs source root file place true d
  /-- The value of another member stands below its object, by the name of the key. -/
  | member {file : FilePath} {place : ValuePath} {isPublic : Bool} {members : Members Document}
      {key name : String} {d : Document} :
      Occurs source root file place isPublic (.object members) → (key, d) ∈ members →
      key ≠ Directive.includeKey → key ≠ Directive.publicKey → Directive.IsName key name →
      Occurs source root file (place.key name) isPublic d
  /-- An item stands below its array, by its index. -/
  | item {file : FilePath} {place : ValuePath} {isPublic : Bool} {items : List Document} {i : Nat}
      {d : Document} : Occurs source root file place isPublic (.array items) →
      items[i]? = some d → Occurs source root file (place.index i) isPublic d
  /-- An included file stands where the object does that includes it. -/
  | included {file : FilePath} {place : ValuePath} {isPublic : Bool} {members : Members Document}
      {value : Document} {text : String} {contents : Members Document} :
      Occurs source root file place isPublic (.object members) →
      members.get? Directive.includeKey = some value → Directive.Names value text →
      source.Holds (file.parent.resolve text) contents →
      Occurs source root (file.parent.resolve text) place isPublic (.object contents)

/-- **A member of a live object**, by its file, its place, its key, whether its surroundings are
public, and its value. -/
def MemberAt (source : Source) (root file : FilePath) (place : ValuePath) (key : String)
    (isPublic : Bool) (value : Document) : Prop :=
  ∃ above members name, source.Occurs root file above isPublic (.object members) ∧
    (key, value) ∈ members ∧ key ≠ Directive.includeKey ∧ key ≠ Directive.publicKey ∧
    Directive.IsName key name ∧ place = above.key name

variable {source : Source} {root : FilePath} {scope : Scope} {place : ValuePath}

/-! ### Tracing entries back -/

/-- A property of entries that only members and items have of themselves, and what is known of
the places where they have it. -/
structure Traces (source : Source) (root : FilePath) (K : Bool × Marked → Prop)
    (Q : ValuePath → Prop) : Prop where
  merge : ∀ base layer, K (Marked.mergeEntry base layer) → K base ∨ K layer
  member : ∀ {scope : Scope} {place : ValuePath} {members : Members Document}
    {member : String × Document} {node : Marked},
    source.Occurs root scope.file place scope.isPublic (.object members) →
    member ∈ Directive.ordinary members →
    source.tree (scope.member (Directive.name member.1)) member.2 = .ok node →
    K (Directive.isMarked member.1 || scope.isPublic, node) →
    Q (place.key (Directive.name member.1))
  item : ∀ {place : ValuePath} {i : Nat} {node : Marked}, K (false, node) → Q (place.index i)

variable {K : Bool × Marked → Prop} {Q : ValuePath → Prop}

section Scopes

variable {members : Members Document}
  (h : source.Occurs root scope.file place scope.isPublic (.object members))

include h

theorem Occurs.ordinary {member : String × Document}
    (hmember : member ∈ Directive.ordinary members) :
    source.Occurs root (scope.member (Directive.name member.1)).file
      (place.key (Directive.name member.1)) (scope.member (Directive.name member.1)).isPublic
      member.2 := by
  obtain ⟨hmem, hinclude, hpublic⟩ := Directive.mem_ordinary.1 hmember
  exact h.member hmem hinclude hpublic (Directive.isName_iff.2 rfl)

theorem Occurs.memberAt {member : String × Document}
    (hmember : member ∈ Directive.ordinary members) :
    source.MemberAt root scope.file (place.key (Directive.name member.1)) member.1 scope.isPublic
      member.2 := by
  obtain ⟨hmem, hinclude, hpublic⟩ := Directive.mem_ordinary.1 hmember
  exact ⟨place, members, _, h, hmem, hinclude, hpublic, Directive.isName_iff.2 rfl, rfl⟩

theorem Occurs.inBlock {d : Document} (hd : members.get? Directive.publicKey = some d) :
    source.Occurs root scope.inBlock.file place scope.inBlock.isPublic d :=
  h.block hd

theorem Occurs.enter {text : String} {contents : Members Document}
    (htext : text ∈ Directive.texts members)
    (hholds : source.Holds (scope.target text) contents) :
    source.Occurs root (scope.enter (scope.target text)).file place
      (scope.enter (scope.target text)).isPublic (.object contents) := by
  obtain ⟨value, hvalue, hnames⟩ := Directive.mem_texts.1 htext
  exact h.included hvalue hnames hholds

end Scopes

/-- Entries of the own members of an object trace back to these. -/
theorem Traces.own (h : source.Traces root K Q) {members : Members Document}
    {own : Members (Bool × Marked)}
    (hoccurs : source.Occurs root scope.file place scope.isPublic (.object members))
    (hentries : List.Forall₂ (source.Entry scope) (Directive.ordinary members) own)
    (hvalues : ∀ member ∈ Directive.ordinary members, ∀ node,
      source.tree (scope.member (Directive.name member.1)) member.2 = .ok node →
      ∀ q entry, q ≠ [] → Marked.follow (false, node) q = some entry → K entry →
        Q (place.key (Directive.name member.1) ++ q))
    {q : ValuePath} {entry : Bool × Marked} (hq : q ≠ [])
    (hfollow : Marked.follow (false, .object own) q = some entry) (hentry : K entry) :
    Q (place ++ q) := by
  rcases q with _ | ⟨step, rest⟩
  · exact absurd rfl hq
  · obtain ⟨next, hnext, hrest⟩ := Option.bind_eq_some_iff.1 hfollow
    rcases step with name | i
    · obtain ⟨member, hmember, rfl, hmark, hnode⟩ :=
        exists_left_of_forall₂ hentries (Members.mem_of_get? hnext)
      rcases rest with _ | ⟨step, rest⟩
      · obtain rfl := Option.some.inj hrest
        exact h.member hoccurs hmember hnode (hmark ▸ hentry)
      · have hbelow := hvalues member hmember _ hnode (step :: rest) entry (by simp) hrest hentry
        rwa [ValuePath.key, List.append_assoc] at hbelow
    · simp [Marked.child?] at hnext

/-- **Every entry of an expanded tree traces back** to a member or an item of an occurrence. -/
theorem Traces.tree (h : source.Traces root K Q) {d : Document} {node : Marked}
    (hoccurs : source.Occurs root scope.file place scope.isPublic d)
    (hnode : source.tree scope d = .ok node) {q : ValuePath} {entry : Bool × Marked} (hq : q ≠ [])
    (hfollow : Marked.follow (false, node) q = some entry) (hentry : K entry) : Q (place ++ q) := by
  induction scope, d using expansion_induction source generalizing place node q entry with
  | scalar scope s =>
    rw [tree_scalar, Except.ok.injEq] at hnode
    subst hnode
    exact absurd (Marked.eq_nil_of_follow (Marked.child?_scalar s) hfollow) hq
  | array scope items ih =>
    obtain ⟨nodes, rfl, hlength, hnodes⟩ := tree_array_eq_ok_iff.1 hnode
    rcases q with _ | ⟨step, rest⟩
    · exact absurd rfl hq
    · obtain ⟨next, hnext, hrest⟩ := Option.bind_eq_some_iff.1 hfollow
      rcases step with name | i
      · simp [Marked.child?] at hnext
      · obtain ⟨item, hitem, rfl⟩ := Option.map_eq_some_iff.1 hnext
        rcases rest with _ | ⟨step, rest⟩
        · obtain rfl := Option.some.inj hrest
          exact h.item hentry
        · have hi : i < items.length := hlength ▸ (List.getElem?_eq_some_iff.1 hitem).1
          have hthere := List.getElem?_eq_getElem hi
          have hbelow := ih i _ hthere (hoccurs.item hthere) (hnodes i _ _ hthere hitem)
            (List.cons_ne_nil step rest) hrest hentry
          rwa [ValuePath.index, List.append_assoc] at hbelow
  | object scope members hincluded hblock hown =>
    obtain ⟨tree, rfl, htree⟩ := tree_object_eq_ok_iff.1 hnode
    obtain ⟨trees, block, own, htrees, hb, hnames, hentries, rfl⟩ := objectTree_eq_ok_iff.1 htree
    rw [← Marked.mergeEntry_object] at hfollow
    -- an entry of the merge is one of its three layers
    rcases Marked.follow_mergeEntry h.merge hfollow hentry with ⟨e, he, hk⟩ | ⟨e, he, hk⟩
    · rw [← Marked.mergeEntry_object] at he
      rcases Marked.follow_mergeEntry h.merge he hk with ⟨e, he, hk⟩ | ⟨e, he, hk⟩
      · rcases Marked.follow_foldl h.merge he hk with ⟨e, he, -⟩ | ⟨tree, htree, e, he, hk⟩
        · exact absurd (Marked.eq_nil_of_follow Marked.child?_empty he) hq
        · obtain ⟨text, htext, hnew, contents, hholds, htree⟩ := exists_left_of_forall₂ htrees htree
          exact hincluded text contents hnew hholds (hoccurs.enter htext hholds)
            (tree_object_of_eq_ok htree) hq he hk
      · rcases blockTree_eq_ok_iff.1 hb with ⟨-, rfl⟩ | ⟨contents, hcontents, hb⟩
        · exact absurd (Marked.eq_nil_of_follow Marked.child?_empty he) hq
        · exact hblock contents hcontents (hoccurs.inBlock hcontents)
            (tree_object_of_eq_ok hb) hq he hk
    · exact h.own hoccurs hentries (fun member hmember node hnode q entry hq hfollow hentry =>
        hown member hmember (hoccurs.ordinary hmember) hnode hq hfollow hentry) hq he hk

/-- **Marks trace back** to members that are public by their keys or surroundings. -/
theorem traces_marks : source.Traces root (fun entry => entry.1 = true) fun p =>
    ∃ file key isPublic value, source.MemberAt root file p key isPublic value ∧
      Directive.Publishes key isPublic where
  merge _ _ h := Bool.or_eq_true_iff.1 h
  member {scope _ _ member _} hoccurs hmember _ hmark :=
    ⟨scope.file, member.1, scope.isPublic, member.2, hoccurs.memberAt hmember,
      Directive.publishes_iff.2 hmark⟩
  item h := absurd h Bool.false_ne_true

/-- **Arrays and scalars trace back** to members whose values they are, or to items. -/
theorem traces_values : source.Traces root (fun entry => ∀ members, entry.2 ≠ .object members)
    fun p => (∃ above i, p = index above i) ∨ ∃ file key isPublic value,
      source.MemberAt root file p key isPublic value ∧ ∀ members, value ≠ .object members where
  merge base layer h := by
    obtain ⟨_, base⟩ := base
    obtain ⟨_, layer⟩ := layer
    rcases base with s | items | base
    · exact Or.inl (by simp)
    · exact Or.inl (by simp)
    · rcases layer with s | items | layer
      · exact Or.inr (by simp)
      · exact Or.inr (by simp)
      · exact absurd (Marked.merge_object base layer) (h _)
  member {scope _ _ member _} hoccurs hmember hnode hvalue := by
    refine Or.inr ⟨scope.file, member.1, scope.isPublic, member.2, hoccurs.memberAt hmember,
      fun contents hcontents => ?_⟩
    rw [hcontents] at hnode
    obtain ⟨tree, rfl, -⟩ := tree_object_eq_ok_iff.1 hnode
    exact hvalue tree rfl
  item {place i _} _ := Or.inl ⟨place, i, rfl⟩

/-! ### Marks that survive -/

/-- Whatever stands above a place as a member, in whatever file, is an object. -/
def Unreplaced (source : Source) (root : FilePath) (p : ValuePath) : Prop :=
  ∀ q file key isPublic value, q <+: p → q ≠ p → source.MemberAt root file q key isPublic value →
    ∃ members, value = .object members

/-- Where all members above a place are objects, whatever traces back to members and items holds
only objects above it. -/
theorem objectsAbove_of_unreplaced {tree : Members (Bool × Marked)} {p : ValuePath}
    (hkeys : ∀ step ∈ place ++ p, ∃ name, step = .key name)
    (hunreplaced : source.Unreplaced root (place ++ p))
    (htraces : ∀ q entry, q ≠ [] → Marked.follow (false, .object tree) q = some entry →
      (∀ members, entry.2 ≠ .object members) →
      (∃ above i, place ++ q = index above i) ∨ ∃ file key isPublic value,
        source.MemberAt root file (place ++ q) key isPublic value ∧
          ∀ members, value ≠ .object members) :
    Marked.ObjectsAbove (false, .object tree) p := by
  intro q entry hq hne hfollow
  by_contra hobject
  rcases q with _ | ⟨step, rest⟩
  · obtain rfl := Option.some.inj hfollow
    exact hobject ⟨tree, rfl⟩
  · obtain ⟨more, rfl⟩ := hq
    rcases htraces _ entry (List.cons_ne_nil step rest) hfollow
      fun members h => hobject ⟨members, h⟩ with
      ⟨above, i, habove⟩ | ⟨file, key, isPublic, value, hmember, hvalue⟩
    · -- there are no items on the way
      have hindex : .index i ∈ place ++ (step :: rest ++ more) := by
        rw [← List.append_assoc, habove]
        simp [index]
      obtain ⟨name, hname⟩ := hkeys _ hindex
      cases hname
    · obtain ⟨members, rfl⟩ := hunreplaced _ file key isPublic value
        (List.prefix_append_right_inj place |>.2 (List.prefix_append _ more))
        (fun heq => hne (List.append_cancel_left heq)) hmember
      exact hvalue members rfl

variable {members : Members Document} {tree : Members (Bool × Marked)}

/-- A mark at or below a member is one of the object. -/
theorem markedAt_of_member (h : source.objectTree scope members = .ok tree)
    {member : String × Document} (hmember : member ∈ Directive.ordinary members) :
    ∃ node, source.tree (scope.member (Directive.name member.1)) member.2 = .ok node ∧ ∀ p,
      Marked.MarkedAt (Directive.isMarked member.1 || scope.isPublic, node) p →
        Marked.MarkedAt (false, .object tree) (.key (Directive.name member.1) :: p) := by
  obtain ⟨trees, block, own, -, -, hnames, hentries, rfl⟩ := objectTree_eq_ok_iff.1 h
  obtain ⟨⟨name, mark, node⟩, hentry, hname, hmark, hnode⟩ :=
    exists_right_of_forall₂ hentries hmember
  dsimp only at hname hmark
  subst hname hmark
  have hdistinct : Members.Distinct own := by rwa [Members.Distinct, keys_of_entries hentries]
  refine ⟨node, hnode, fun p hp => ?_⟩
  have hown : Marked.MarkedAt (false, .object own) (.key (Directive.name member.1) :: p) :=
    Marked.markedAt_cons_iff.2 ⟨_, Members.get?_of_mem hdistinct hentry, hp⟩
  rw [← Marked.mergeEntry_object]
  exact hown.mergeEntry_right _

/-- What the own members of an object hold above a place, where all members above it are
objects. -/
theorem objectsAbove_own {own : Members (Bool × Marked)} {p : ValuePath}
    (hoccurs : source.Occurs root scope.file place scope.isPublic (.object members))
    (hentries : List.Forall₂ (source.Entry scope) (Directive.ordinary members) own)
    (hkeys : ∀ step ∈ place ++ p, ∃ name, step = .key name)
    (hunreplaced : source.Unreplaced root (place ++ p)) :
    Marked.ObjectsAbove (false, .object own) p :=
  objectsAbove_of_unreplaced hkeys hunreplaced fun _ _ hq hfollow hvalue =>
    traces_values.own hoccurs hentries (fun _ hmember _ hnode _ _ hq hfollow hvalue =>
      traces_values.tree (hoccurs.ordinary hmember) hnode hq hfollow hvalue) hq hfollow hvalue

/-- What the public block of an object holds above a place, where all members above it are
objects. -/
theorem objectsAbove_block {block : Members (Bool × Marked)} {p : ValuePath}
    (hoccurs : source.Occurs root scope.file place scope.isPublic (.object members))
    (hblock : source.blockTree scope members = .ok block)
    (hkeys : ∀ step ∈ place ++ p, ∃ name, step = .key name)
    (hunreplaced : source.Unreplaced root (place ++ p)) :
    Marked.ObjectsAbove (false, .object block) p := by
  refine objectsAbove_of_unreplaced hkeys hunreplaced fun q entry hq hfollow hvalue => ?_
  rcases blockTree_eq_ok_iff.1 hblock with ⟨-, rfl⟩ | ⟨contents, hcontents, hblock⟩
  · exact absurd (Marked.eq_nil_of_follow Marked.child?_empty hfollow) hq
  · exact traces_values.tree (hoccurs.inBlock hcontents)
      (tree_object_of_eq_ok hblock) hq hfollow hvalue

/-- A mark in the public block of an object is one of the object, where all members above it are
objects. -/
theorem markedAt_of_block
    (hoccurs : source.Occurs root scope.file place scope.isPublic (.object members))
    (h : source.objectTree scope members = .ok tree) {d : Document}
    (hd : members.get? Directive.publicKey = some d) :
    ∃ node, source.tree scope.inBlock d = .ok node ∧ ∀ p,
      (∀ step ∈ place ++ p, ∃ name, step = .key name) → source.Unreplaced root (place ++ p) →
      Marked.MarkedAt (false, node) p → Marked.MarkedAt (false, .object tree) p := by
  obtain ⟨trees, block, own, -, hblock, -, hentries, rfl⟩ := objectTree_eq_ok_iff.1 h
  rcases blockTree_eq_ok_iff.1 hblock with ⟨hnone, -⟩ | ⟨contents, hcontents, hblock⟩
  · simp [hnone] at hd
  · obtain rfl : .object contents = d := Option.some.inj (hcontents.symm.trans hd)
    refine ⟨.object block, tree_object_of_eq_ok hblock, ?_⟩
    intro p hkeys hunreplaced hp
    have hown := objectsAbove_own hoccurs hentries hkeys hunreplaced
    rw [← Marked.mergeEntry_object, ← Marked.mergeEntry_object]
    exact (hp.mergeEntry_right _).mergeEntry_left
      (fun step hstep => hkeys step (List.mem_append_right _ hstep)) hown

/-- A mark in an included file is one of the object that includes it, where all members above it
are objects. -/
theorem markedAt_of_included
    (hoccurs : source.Occurs root scope.file place scope.isPublic (.object members))
    (h : source.objectTree scope members = .ok tree) {text : String}
    (htext : text ∈ Directive.texts members) {contents : Members Document}
    (hholds : source.Holds (scope.target text) contents) :
    ∃ node, source.tree (scope.enter (scope.target text)) (.object contents) = .ok node ∧ ∀ p,
      (∀ step ∈ place ++ p, ∃ name, step = .key name) → source.Unreplaced root (place ++ p) →
      Marked.MarkedAt (false, node) p → Marked.MarkedAt (false, .object tree) p := by
  obtain ⟨trees, block, own, htrees, hblock, -, hentries, rfl⟩ := objectTree_eq_ok_iff.1 h
  obtain ⟨file, hfile, -, contents', hholds', htree⟩ := exists_right_of_forall₂ htrees htext
  obtain rfl := hholds.unique hholds'
  refine ⟨.object file, tree_object_of_eq_ok htree, ?_⟩
  intro p hkeys hunreplaced hp
  have hsteps : ∀ step ∈ p, ∃ name, step = .key name := fun step hstep =>
    hkeys step (List.mem_append_right _ hstep)
  have hfiles : ∀ tree ∈ trees, Marked.ObjectsAbove (false, .object tree) p := fun tree htree => by
    obtain ⟨text, htext, -, next, hnext, htree⟩ := exists_left_of_forall₂ htrees htree
    exact objectsAbove_of_unreplaced hkeys hunreplaced fun q entry hq hfollow hvalue =>
      traces_values.tree (hoccurs.enter htext hnext) (tree_object_of_eq_ok htree) hq
        hfollow hvalue
  have hpublic := objectsAbove_block hoccurs hblock hkeys hunreplaced
  have hown := objectsAbove_own hoccurs hentries hkeys hunreplaced
  -- the mark outlasts the files after this one, the block, and the own members
  rw [← Marked.mergeEntry_object, ← Marked.mergeEntry_object]
  exact ((hp.foldl_of_mem hfile hsteps hfiles _).mergeEntry_left hsteps hpublic).mergeEntry_left
    hsteps hown

/-! ### From an occurrence to the merged tree -/

/-- **An occurrence arrives in the merged tree**: it is expanded on the way, what is visited for
it was read, and its marks are marks of the merged tree, where all members above them are
objects. -/
structure Arrives (source : Source) (root : FilePath) (merged : Members (Bool × Marked))
    (scope : Scope) (place : ValuePath) (d : Document) (node : Marked) : Prop where
  tree_eq : source.tree scope d = .ok node
  visited : ∀ path, path = scope.file ∨
    path ∈ Load.visits (Load.expand scope d : Load source _) → path ∈ source.visited root
  marks : ∀ p, (∀ step ∈ place ++ p, ∃ name, step = .key name) →
    source.Unreplaced root (place ++ p) → Marked.MarkedAt (false, node) p →
    Marked.MarkedAt (false, .object merged) (place ++ p)

/-- **Every occurrence arrives.** -/
theorem Occurs.arrives {merged : Members (Bool × Marked)} {contents : Members Document}
    (hholds : source.Holds root contents)
    (hmerged : source.objectTree (.top root) contents = .ok merged) {file : FilePath}
    {isPublic : Bool} {d : Document} (h : source.Occurs root file place isPublic d) :
    ∃ scope node, scope.file = file ∧ scope.isPublic = isPublic ∧
      source.Arrives root merged scope place d node := by
  induction h with
  | root hcontents =>
    obtain rfl := hholds.unique hcontents
    have hnode := tree_object_of_eq_ok hmerged
    exact ⟨.top root, _, rfl, rfl, hnode, fun path hpath => mem_visited hholds hpath hnode,
      fun p _ _ hp => hp⟩
  | block hoccurs hd ih =>
    obtain ⟨scope, node, rfl, rfl, harrives⟩ := ih
    obtain ⟨tree, rfl, htree⟩ := tree_object_eq_ok_iff.1 harrives.tree_eq
    obtain ⟨block, hblock, hmarks⟩ := markedAt_of_block hoccurs htree hd
    refine ⟨scope.inBlock, block, rfl, rfl, hblock, fun path hpath => ?_, ?_⟩
    · exact harrives.visited path (hpath.imp_right (mem_visits_of_block harrives.tree_eq hd))
    · intro p hkeys hunreplaced hp
      exact harrives.marks p hkeys hunreplaced (hmarks p hkeys hunreplaced hp)
  | @member _ place _ _ key name d hoccurs hmem hinclude hpublic hname ih =>
    obtain ⟨scope, node, rfl, rfl, harrives⟩ := ih
    obtain rfl := Directive.isName_iff.1 hname
    have hmember := Directive.mem_ordinary.2 (⟨hmem, hinclude, hpublic⟩ :
      (key, d) ∈ _ ∧ key ≠ Directive.includeKey ∧ key ≠ Directive.publicKey)
    obtain ⟨tree, rfl, htree⟩ := tree_object_eq_ok_iff.1 harrives.tree_eq
    obtain ⟨value, hvalue, hmarks⟩ := markedAt_of_member htree hmember
    refine ⟨scope.member (Directive.name key), value, rfl, rfl, hvalue, fun path hpath => ?_, ?_⟩
    · exact harrives.visited path (hpath.imp_right (mem_visits_of_member harrives.tree_eq hmember))
    · intro p hkeys hunreplaced hp
      have hplace : place.key (Directive.name key) ++ p =
          place ++ .key (Directive.name key) :: p := by
        rw [ValuePath.key, List.append_assoc]
        rfl
      rw [hplace] at hkeys hunreplaced ⊢
      exact harrives.marks _ hkeys hunreplaced (hmarks p (hp.of_unmarked _))
  | @item _ _ _ _ i _ hoccurs hitem ih =>
    obtain ⟨scope, node, rfl, rfl, harrives⟩ := ih
    obtain ⟨nodes, -, hlength, hnodes⟩ := tree_array_eq_ok_iff.1 harrives.tree_eq
    have hi : i < nodes.length := hlength ▸ (List.getElem?_eq_some_iff.1 hitem).1
    refine ⟨scope.item i, _, rfl, rfl, hnodes i _ _ hitem (List.getElem?_eq_getElem hi),
      fun path hpath => ?_, ?_⟩
    · exact harrives.visited path (hpath.imp_right (mem_visits_of_item harrives.tree_eq hitem))
    · -- a place below an item does not consist of keys
      intro p hkeys
      obtain ⟨name, hname⟩ := hkeys (.index i) (by simp [index])
      cases hname
  | included hoccurs hvalue hnames hcontents ih =>
    obtain ⟨scope, node, rfl, rfl, harrives⟩ := ih
    obtain ⟨tree, rfl, htree⟩ := tree_object_eq_ok_iff.1 harrives.tree_eq
    have htext := Directive.mem_texts.2 ⟨_, hvalue, hnames⟩
    obtain ⟨file, hfile, hmarks⟩ := markedAt_of_included hoccurs htree htext hcontents
    refine ⟨scope.enter (scope.target _), file, rfl, rfl, hfile, fun path hpath => ?_, ?_⟩
    · refine harrives.visited path (Or.inr ?_)
      exact mem_visits_of_included harrives.tree_eq htext hcontents hpath
    · intro p hkeys hunreplaced hp
      exact harrives.marks p hkeys hunreplaced (hmarks p hkeys hunreplaced hp)

end Source

/-- **Public paths and marked members correspond.** Every public path is the place of a member
that is public, by its key or its surroundings, in a file that was read. And a member that is
public is covered by a public path, if its place consists of keys and every member above it, in
whatever file, is an object. -/
theorem publicPaths_provenance {env : Environment} {cwd path : String} {loaded : Loaded}
    (h : (load env cwd path).outcome = .ok loaded) :
    ∃ dir, env.directory cwd = .ok dir ∧
      (∀ p ∈ loaded.publicPaths, ∃ file ∈ loaded.files, ∃ key isPublic value,
        env.source.MemberAt (dir.resolve path) file p key isPublic value ∧
          Directive.Publishes key isPublic) ∧
      ∀ p file key isPublic value,
        env.source.MemberAt (dir.resolve path) file p key isPublic value →
        Directive.Publishes key isPublic → (∀ step ∈ p, ∃ name, step = .key name) →
        (∀ q file' key' isPublic' value', q <+: p → q ≠ p →
          env.source.MemberAt (dir.resolve path) file' q key' isPublic' value' →
          ∃ members, value' = .object members) →
        ∃ q ∈ loaded.publicPaths, q <+: p := by
  obtain ⟨-, dir, hdir, contents, merged, hholds, hmerged, rfl⟩ := load_eq_ok_iff.1 h
  have hnode := Source.tree_object_of_eq_ok hmerged
  have hdistinct : (Marked.object merged).Distinct := Source.distinct_tree hnode
  have hpaths : (Marked.object merged).publicPaths = Marked.memberPaths merged := by
    rw [Marked.publicPaths]
  rw [← hpaths]
  refine ⟨dir, hdir, fun p hp => ?_, ?_⟩
  · obtain ⟨node, hfollow⟩ := Marked.markedAt_of_mem_publicPaths hdistinct hp
    have hne : p ≠ [] := by
      rintro rfl
      exact Marked.nil_not_mem_publicPaths _ hp
    obtain ⟨file, key, isPublic, value, ⟨above, members, name, hoccurs, hmember⟩, hpublishes⟩ :=
      Source.traces_marks.tree (.root hholds) hnode hne hfollow rfl
    obtain ⟨scope, node, hfile, -, harrives⟩ := hoccurs.arrives hholds hmerged
    exact ⟨file, harrives.visited file (Or.inl hfile.symm), key, isPublic, value,
      ⟨above, members, name, hoccurs, hmember⟩, hpublishes⟩
  · rintro _ file key isPublic value ⟨above, members, name, hoccurs, hmem, hinclude, hpublic, hname,
      rfl⟩ hpublishes hkeys hunreplaced
    obtain ⟨scope, node, rfl, rfl, harrives⟩ := hoccurs.arrives hholds hmerged
    obtain ⟨tree, rfl, htree⟩ := Source.tree_object_eq_ok_iff.1 harrives.tree_eq
    obtain rfl := Directive.isName_iff.1 hname
    have hmember := Directive.mem_ordinary.2 (⟨hmem, hinclude, hpublic⟩ :
      (key, value) ∈ members ∧ key ≠ Directive.includeKey ∧ key ≠ Directive.publicKey)
    obtain ⟨node, -, hmarks⟩ := Source.markedAt_of_member htree hmember
    have hmark := hmarks [] ⟨node, congrArg (fun mark => some (mark, node))
      (Directive.publishes_iff.1 hpublishes)⟩
    exact Marked.exists_mem_publicPaths_of_markedAt hdistinct
      (harrives.marks [.key (Directive.name key)] hkeys hunreplaced hmark)

set_option maxRecDepth 4000 in
/-- A member of a public block is covered by a public path, and whatever is public was read. -/
theorem publicPaths_of_public_block :
    ∃ loaded, (load (MemoryFiles.ofDocuments [("/a", .object [
        ("#public", .object [("k", .scalar .null)])])]).environment "/" "a").outcome = .ok loaded ∧
      (∃ q ∈ loaded.publicPaths, q <+: [.key "k"]) ∧
      ∀ p ∈ loaded.publicPaths, ∃ file ∈ loaded.files, ∃ key isPublic value,
        (MemoryFiles.ofDocuments [("/a", .object [
          ("#public", .object [("k", .scalar .null)])])]).source.MemberAt
            (FilePath.root.resolve "a") file p key isPublic value := by
  let env := (MemoryFiles.ofDocuments [("/a", .object [
    ("#public", .object [("k", .scalar .null)])])]).environment
  have h : (load env "/" "a").outcome = .ok
      ⟨[("k", .scalar .null)], [[.key "k"]], [FilePath.root.resolve "a"]⟩ := by cbv
  obtain ⟨dir, hdir, hsound, hcomplete⟩ := publicPaths_provenance h
  have hroot : env.directory "/" = .ok .root := by cbv
  obtain rfl : dir = .root := Except.ok.inj (hdir.symm.trans hroot)
  have hholds : env.source.Holds (FilePath.root.resolve "a")
      [("#public", .object [("k", .scalar .null)])] := ⟨_, rfl, by cbv⟩
  have hmember : env.source.MemberAt (FilePath.root.resolve "a") (FilePath.root.resolve "a")
      [.key "k"] "k" true (.scalar .null) :=
    ⟨.root, _, "k", .block (.root hholds) rfl, List.mem_cons_self, by decide, by decide,
      Directive.isName_iff.2 (by decide), rfl⟩
  refine ⟨_, h, hcomplete _ _ _ _ _ hmember (Or.inr rfl) ?_ ?_, fun p hp => ?_⟩
  · exact fun step hstep => ⟨"k", List.mem_singleton.1 hstep⟩
  · rintro q file key isPublic value hq hne ⟨above, members, name, -, -, -, -, -, rfl⟩
    -- no member stands at the root
    exact absurd (hq.eq_of_length_le (by simp [ValuePath.key])) hne
  · obtain ⟨file, hfile, key, isPublic, value, hmember, -⟩ := hsound p hp
    exact ⟨file, hfile, key, isPublic, value, hmember⟩

end ConfigTree
