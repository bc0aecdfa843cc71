import ConfigTree.Proofs.Expansion
import Mathlib.Data.List.Forall2

/-!
# The tree that a document stands for

As expansions are steady, each has an outcome of its own, and these outcomes satisfy
equations in which no cache and no log occurs any more. The outcome for a document is
`ConfigTree.Source.tree` and the one for an object `ConfigTree.Source.objectTree`.

Two facts carry every later argument. `ConfigTree.Source.objectTree_eq_ok_iff` says all that
a successful expansion of an object does: the files that it includes are merged in order,
then its public block, then its own members, each with a name of its own. And
`ConfigTree.Source.expansion_induction` is the induction that goes with it, from an object
to its block, its members and the contents of the files that it includes.
-/

namespace ConfigTree

/-! ### Related lists -/

section Related

variable {α β : Type} {R : α → β → Prop} {xs : List α} {ys : List β}

theorem exists_right_of_forall₂ (h : List.Forall₂ R xs ys) {x : α} (hx : x ∈ xs) :
    ∃ y ∈ ys, R x y := by
  induction h with
  | nil => simp at hx
  | @cons a b xs ys hab _ ih =>
    rcases List.mem_cons.1 hx with rfl | hx
    · exact ⟨b, List.mem_cons_self, hab⟩
    · obtain ⟨y, hy, hxy⟩ := ih hx
      exact ⟨y, List.mem_cons_of_mem _ hy, hxy⟩

theorem exists_left_of_forall₂ (h : List.Forall₂ R xs ys) {y : β} (hy : y ∈ ys) :
    ∃ x ∈ xs, R x y := by
  obtain ⟨x, hx, hxy⟩ := exists_right_of_forall₂ (R := flip R) h.flip hy
  exact ⟨x, hx, hxy⟩

theorem exists_forall₂_iff {xs : List α} :
    (∃ ys, List.Forall₂ R xs ys) ↔ ∀ x ∈ xs, ∃ y, R x y := by
  constructor
  · rintro ⟨ys, h⟩ x hx
    obtain ⟨y, -, hxy⟩ := exists_right_of_forall₂ h hx
    exact ⟨y, hxy⟩
  · intro h
    induction xs with
    | nil => exact ⟨[], .nil⟩
    | cons x xs ih =>
      obtain ⟨⟨y, hxy⟩, hxs⟩ := List.forall_mem_cons.1 h
      obtain ⟨ys, hys⟩ := ih hxs
      exact ⟨y :: ys, .cons hxy hys⟩

/-- Lists stay related when each pair is replaced by one that agrees with it. -/
theorem exists_forall₂_of_map {γ δ : Type} {S : α → γ → Prop} {f : β → δ} {g : γ → δ}
    (h : List.Forall₂ R xs ys) (hstep : ∀ x ∈ xs, ∀ y, R x y → ∃ y', S x y' ∧ g y' = f y) :
    ∃ ys', List.Forall₂ S xs ys' ∧ ys'.map g = ys.map f := by
  induction h with
  | nil => exact ⟨[], .nil, rfl⟩
  | cons hxy _ ih =>
    obtain ⟨hfirst, hrest⟩ := List.forall_mem_cons.1 hstep
    obtain ⟨y', hxy', hy'⟩ := hfirst _ hxy
    obtain ⟨ys', hys', hmap⟩ := ih hrest
    exact ⟨y' :: ys', .cons hxy' hys', congrArg₂ List.cons hy' hmap⟩

end Related

namespace Source

variable (source : Source)

/-! ### Outcomes -/

/-- **The tree of an object**: what its expansion gives when nothing was read before. -/
def objectTree (scope : Scope) (members : Members Document) :
    Except LoadError (Members (Bool × Marked)) :=
  Load.outcome (Load.expandObject scope members : Load source _)

/-- **The tree of a document.** -/
def tree (scope : Scope) (d : Document) : Except LoadError Marked :=
  Load.outcome (Load.expand scope d : Load source _)

/-- The trees of the items of an array, the first of which has index `i`. -/
def itemTrees (scope : Scope) (i : Nat) (items : List Document) : Except LoadError (List Marked) :=
  Load.outcome (Load.expandItems scope i items : Load source _)

/-- The trees of the members of an object, after members with the names `taken`. -/
def memberTrees (scope : Scope) (taken : List String) (members : Members Document) :
    Except LoadError (Members (Bool × Marked)) :=
  Load.outcome (Load.expandMembers scope taken members : Load source _)

/-- The tree of the files that these texts name, merged over `merged`. -/
def includedTree (scope : Scope) (texts : List String) (merged : Members (Bool × Marked)) :
    Except LoadError (Members (Bool × Marked)) :=
  Load.outcome (Load.expandIncludes scope texts merged : Load source _)

/-- The tree of the public block of an object. -/
def blockTree (scope : Scope) (members : Members Document) :
    Except LoadError (Members (Bool × Marked)) :=
  Load.outcome (Load.expandBlock scope members : Load source _)

variable {source} {scope : Scope}

/-- **What a file is included as**: its target is not being expanded already, holds an
object, and this is the tree of that object. -/
def Included (source : Source) (scope : Scope) (text : String) (tree : Members (Bool × Marked)) :
    Prop :=
  scope.target text ∉ scope.chain ∧ ∃ members, source.Holds (scope.target text) members ∧
    source.objectTree (scope.enter (scope.target text)) members = .ok tree

/-- **What a member is expanded as**: the entry under its name, marked by its key or by its
surroundings, with the tree of its value. -/
def Entry (source : Source) (scope : Scope) (member : String × Document)
    (entry : String × Bool × Marked) : Prop :=
  entry.1 = Directive.name member.1 ∧
    entry.2.1 = (Directive.isMarked member.1 || scope.isPublic) ∧
    source.tree (scope.member (Directive.name member.1)) member.2 = .ok entry.2.2

theorem tree_scalar (s : Scalar) : source.tree scope (.scalar s) = .ok (.scalar s) := by
  rw [tree, Load.expand]
  rfl

theorem itemTrees_cons_eq_ok_iff {i : Nat} {item : Document} {items : List Document}
    {nodes : List Marked} :
    source.itemTrees scope i (item :: items) = .ok nodes ↔
      ∃ node others, source.tree (scope.item i) item = .ok node ∧
        source.itemTrees scope (i + 1) items = .ok others ∧ node :: others = nodes := by
  rw [itemTrees, Load.expandItems, Load.outcome_bind_eq_ok (Load.steady_expand _ _)
    (Load.steady_restItems _ _ _)]
  simp only [Load.outcome_bind_eq_ok (Load.steady_expandItems _ _ _) fun _ => Load.steady_pure _,
    Load.outcome_pure, Except.ok.injEq, tree, itemTrees, exists_and_left]

/-- The items of an array are expanded one by one, each at its index. -/
theorem itemTrees_eq_ok_iff {i : Nat} {items : List Document} {nodes : List Marked} :
    source.itemTrees scope i items = .ok nodes ↔
      nodes.length = items.length ∧ ∀ j item node, items[j]? = some item → nodes[j]? = some node →
        source.tree (scope.item (i + j)) item = .ok node := by
  induction items generalizing i nodes with
  | nil =>
    rw [itemTrees, Load.expandItems, Load.outcome_pure, Except.ok.injEq]
    constructor
    · rintro rfl
      simp
    · rintro ⟨h, -⟩
      exact (List.length_eq_zero_iff.1 h).symm
  | cons item items ih =>
    rw [itemTrees_cons_eq_ok_iff]
    constructor
    · rintro ⟨node, others, hnode, hothers, rfl⟩
      obtain ⟨hlength, hrest⟩ := ih.1 hothers
      refine ⟨by simp [hlength], ?_⟩
      rintro (_ | j) item' node' hitem' hnode'
      · simp only [List.getElem?_cons_zero, Option.some.injEq] at hitem' hnode'
        exact hitem' ▸ hnode' ▸ hnode
      · rw [List.getElem?_cons_succ] at hitem' hnode'
        rw [show i + (j + 1) = i + 1 + j by omega]
        exact hrest j item' node' hitem' hnode'
    · rintro ⟨hlength, hrest⟩
      rcases nodes with _ | ⟨node, others⟩
      · simp at hlength
      · refine ⟨node, others, hrest 0 item node rfl rfl, ih.2 ⟨by simpa using hlength, ?_⟩, rfl⟩
        intro j item' node' hitem' hnode'
        rw [show i + 1 + j = i + (j + 1) by omega]
        exact hrest (j + 1) item' node' hitem' hnode'

theorem memberTrees_cons_eq_ok_iff {taken : List String} {member : String × Document}
    {members : Members Document} {own : Members (Bool × Marked)} :
    source.memberTrees scope taken (member :: members) = .ok own ↔
      Directive.name member.1 ∉ taken ∧
        ∃ entry others, source.Entry scope member entry ∧
          source.memberTrees scope (Directive.name member.1 :: taken) members = .ok others ∧
          entry :: others = own := by
  obtain ⟨key, value⟩ := member
  rw [memberTrees, Load.expandMembers_cons]
  split
  · simp_all
  · rename_i htaken
    rw [Load.outcome_bind_eq_ok (Load.steady_expand _ _) fun _ => Load.steady_restMembers _ _ _ _]
    simp only [Load.outcome_bind_eq_ok (Load.steady_expandMembers _ _ _)
      fun _ => Load.steady_pure _, Load.outcome_pure, Except.ok.injEq]
    constructor
    · rintro ⟨node, hnode, others, hothers, rfl⟩
      exact ⟨htaken, (_, _, node), others, ⟨rfl, rfl, hnode⟩, hothers, rfl⟩
    · rintro ⟨-, ⟨name, mark, node⟩, others, ⟨hname, hmark, hnode⟩, hothers, rfl⟩
      dsimp only at hname hmark
      subst hname hmark
      exact ⟨node, hnode, others, hothers, rfl⟩

/-- **A successful array**: its items are expanded one by one, each at its index. -/
theorem tree_array_eq_ok_iff {items : List Document} {node : Marked} :
    source.tree scope (.array items) = .ok node ↔
      ∃ nodes, node = .array nodes ∧ nodes.length = items.length ∧
        ∀ i item node, items[i]? = some item → nodes[i]? = some node →
          source.tree (scope.item i) item = .ok node := by
  rw [tree, Load.expand, Load.outcome_bind_eq_ok (Load.steady_expandItems _ _ _)
    fun _ => Load.steady_pure _]
  refine exists_congr fun nodes => ?_
  rw [Load.outcome_pure, Except.ok.injEq, ← itemTrees, itemTrees_eq_ok_iff, and_comm]
  simp only [Nat.zero_add, eq_comm]

/-- **A successful object as a document.** -/
theorem tree_object_eq_ok_iff {members : Members Document} {node : Marked} :
    source.tree scope (.object members) = .ok node ↔
      ∃ tree, node = .object tree ∧ source.objectTree scope members = .ok tree := by
  rw [tree, Load.expand, Load.outcome_bind_eq_ok (Load.steady_expandObject _ _)
    fun _ => Load.steady_pure _]
  refine exists_congr fun tree => ?_
  rw [Load.outcome_pure, Except.ok.injEq, ← objectTree, and_comm, eq_comm]

theorem tree_object_of_eq_ok {members : Members Document} {tree : Members (Bool × Marked)}
    (h : source.objectTree scope members = .ok tree) :
    source.tree scope (.object members) = .ok (.object tree) :=
  tree_object_eq_ok_iff.2 ⟨tree, rfl, h⟩

/-- The members of an object are expanded one by one, and get names of their own. -/
theorem memberTrees_eq_ok_iff {taken : List String} {members : Members Document}
    {own : Members (Bool × Marked)} :
    source.memberTrees scope taken members = .ok own ↔
      (members.keys.map Directive.name).Nodup ∧
        (∀ key ∈ members.keys, Directive.name key ∉ taken) ∧
        List.Forall₂ (source.Entry scope) members own := by
  induction members generalizing taken own with
  | nil =>
    rw [memberTrees, Load.expandMembers, Load.outcome_pure, Except.ok.injEq]
    simp [Members.keys, eq_comm]
  | cons member members ih =>
    rw [memberTrees_cons_eq_ok_iff]
    simp only [ih, Members.keys, List.map_cons, List.nodup_cons, List.mem_cons, List.mem_map,
      forall_eq_or_imp, List.forall₂_cons_left_iff]
    constructor
    · rintro ⟨htaken, entry, others, hentry, ⟨hnodup, hnames, hothers⟩, rfl⟩
      refine ⟨⟨?_, hnodup⟩, ⟨htaken, ?_⟩, entry, others, hentry, hothers, rfl⟩
      · rintro ⟨key, hkey, heq⟩
        exact hnames key hkey (Or.inl heq)
      · rintro key hkey hmem
        exact hnames key hkey (Or.inr hmem)
    · rintro ⟨⟨hfirst, hnodup⟩, ⟨htaken, hnames⟩, entry, others, hentry, hothers, rfl⟩
      refine ⟨htaken, entry, others, hentry, ⟨hnodup, ?_, hothers⟩, rfl⟩
      rintro key hkey (heq | hmem)
      · exact hfirst ⟨key, hkey, heq⟩
      · exact hnames key hkey hmem

/-- Expanded members have the names of their keys. -/
theorem keys_of_entries {members : Members Document} {own : Members (Bool × Marked)}
    (h : List.Forall₂ (source.Entry scope) members own) :
    own.keys = members.keys.map Directive.name := by
  induction h with
  | nil => rfl
  | cons hentry _ ih => exact congrArg₂ List.cons hentry.1 ih

theorem includedTree_cons_eq_ok_iff {text : String} {texts : List String}
    {merged tree : Members (Bool × Marked)} :
    source.includedTree scope (text :: texts) merged = .ok tree ↔
      ∃ file, source.Included scope text file ∧
        source.includedTree scope texts (Marked.mergeMembers merged file) = .ok tree := by
  rw [includedTree, Load.expandIncludes]
  split
  · rename_i hchain
    simp [Included, hchain]
  · rename_i hchain
    rw [Load.outcome_bind_of_ok (Load.steady_emit _)
      (fun _ => (Load.steady_fetchMembers _).bind (Load.steady_restIncludes _ _ _)) rfl,
      Load.outcome_bind_eq_ok (Load.steady_fetchMembers _) (Load.steady_restIncludes _ _ _)]
    simp only [Load.outcome_bind_eq_ok (Load.steady_expandObject _ _) fun _ =>
      Load.steady_expandIncludes _ _ _]
    constructor
    · rintro ⟨file, hfile, node, hnode, h⟩
      exact ⟨node, ⟨hchain, file.value, Load.outcome_fetchMembers_eq_ok.1 hfile, hnode⟩, h⟩
    · rintro ⟨node, ⟨-, members, hholds, hnode⟩, h⟩
      exact ⟨⟨members, hholds.readable⟩, Load.outcome_fetchMembers_eq_ok.2 hholds, node, hnode, h⟩

/-- The files that an object includes are expanded one by one and merged in order. -/
theorem includedTree_eq_ok_iff {texts : List String} {merged tree : Members (Bool × Marked)} :
    source.includedTree scope texts merged = .ok tree ↔
      ∃ trees, List.Forall₂ (source.Included scope) texts trees ∧
        tree = trees.foldl Marked.mergeMembers merged := by
  induction texts generalizing merged with
  | nil =>
    rw [includedTree, Load.expandIncludes, Load.outcome_pure, Except.ok.injEq]
    simp [eq_comm]
  | cons text texts ih =>
    rw [includedTree_cons_eq_ok_iff]
    simp only [ih, List.forall₂_cons_left_iff]
    constructor
    · rintro ⟨file, hfile, trees, htrees, rfl⟩
      exact ⟨file :: trees, ⟨file, trees, hfile, htrees, rfl⟩, rfl⟩
    · rintro ⟨-, ⟨file, trees, hfile, htrees, rfl⟩, rfl⟩
      exact ⟨file, hfile, trees, htrees, rfl⟩

/-- The public block of an object is an object, and is expanded in its public scope. -/
theorem blockTree_eq_ok_iff {members : Members Document} {tree : Members (Bool × Marked)} :
    source.blockTree scope members = .ok tree ↔
      members.get? Directive.publicKey = none ∧ tree = [] ∨
        ∃ block, members.get? Directive.publicKey = some (.object block) ∧
          source.objectTree scope.inBlock block = .ok tree := by
  rw [blockTree, Load.expandBlock]
  split
  · rename_i h
    simp [h, eq_comm]
  · rename_i block h
    simp [h, objectTree]
  · rename_i d hd h
    simp only [h, Load.outcome_throw, reduceCtorEq, false_and, Option.some.injEq, false_or,
      false_iff, not_exists, not_and]
    intro block hblock
    exact absurd hblock (hd block)

theorem outcome_expandIncluded (scope : Scope) (members : Members Document) :
    Load.outcome (Load.expandIncluded scope members : Load source _) =
      source.includedTree scope (Directive.texts members) [] := by
  rw [Load.expandIncluded, Directive.texts]
  rcases members.get? Directive.includeKey with _ | value
  · rw [Option.elim_none, includedTree, Load.expandIncludes]
  · rw [Option.elim_some]
    exact Load.outcome_bind_of_ok (Load.steady_reportIncludes scope value)
      (fun _ => Load.steady_expandIncludes _ _ _) (Load.outcome_reportIncludes scope value)

/-- **All that a successful object does**: the files that it includes are merged in order,
over them its public block, and over that its own members. -/
theorem objectTree_eq_ok_iff {members : Members Document} {tree : Members (Bool × Marked)} :
    source.objectTree scope members = .ok tree ↔
      ∃ included block own,
        List.Forall₂ (source.Included scope) (Directive.texts members) included ∧
        source.blockTree scope members = .ok block ∧
        ((Directive.ordinary members).keys.map Directive.name).Nodup ∧
        List.Forall₂ (source.Entry scope) (Directive.ordinary members) own ∧
        tree = Marked.mergeMembers
          (Marked.mergeMembers (included.foldl Marked.mergeMembers []) block) own := by
  rw [objectTree, Load.expandObject_eq,
    Load.outcome_bind_eq_ok (Load.steady_expandIncluded scope members) fun _ =>
      (Load.steady_expandBlock _ _).bind fun _ => Load.steady_restObject _ _ _]
  simp only [Load.outcome_bind_eq_ok (Load.steady_expandBlock scope members) fun _ =>
      Load.steady_restObject _ _ _,
    Load.outcome_bind_eq_ok (Load.steady_expandMembers _ _ _) fun _ => Load.steady_pure _,
    outcome_expandIncluded, includedTree_eq_ok_iff, Load.outcome_pure, Except.ok.injEq]
  constructor
  · rintro ⟨_, ⟨trees, htrees, rfl⟩, block, hblock, own, hown, rfl⟩
    obtain ⟨hnames, -, hentries⟩ := memberTrees_eq_ok_iff.1 hown
    exact ⟨trees, block, own, htrees, hblock, hnames, hentries, rfl⟩
  · rintro ⟨trees, block, own, htrees, hblock, hnames, hentries, rfl⟩
    exact ⟨_, ⟨trees, htrees, rfl⟩, block, hblock, own,
      memberTrees_eq_ok_iff.2 ⟨hnames, fun _ _ => List.not_mem_nil, hentries⟩, rfl⟩

/-! ### Success -/

/-- **The document has a tree** here: nothing in it is at fault. -/
def Expands (source : Source) (scope : Scope) (d : Document) : Prop :=
  ∃ node, source.tree scope d = .ok node

theorem expands_scalar (s : Scalar) : source.Expands scope (.scalar s) :=
  ⟨_, tree_scalar s⟩

/-- An array has a tree when its items have. -/
theorem expands_array_iff {items : List Document} :
    source.Expands scope (.array items) ↔
      ∀ i item, items[i]? = some item → source.Expands (scope.item i) item := by
  constructor
  · rintro ⟨node, h⟩ i item hitem
    obtain ⟨nodes, rfl, hlength, hnodes⟩ := tree_array_eq_ok_iff.1 h
    have hi : i < nodes.length := hlength ▸ (List.getElem?_eq_some_iff.1 hitem).1
    exact ⟨nodes[i], hnodes i item _ hitem (List.getElem?_eq_getElem hi)⟩
  · intro h
    have hnodes : ∀ i : Fin items.length, ∃ node, source.tree (scope.item i) items[i] = .ok node :=
      fun i => h i items[i] (List.getElem?_eq_getElem i.isLt)
    choose node hnode using hnodes
    refine ⟨.array (List.ofFn node), tree_array_eq_ok_iff.2 ⟨_, rfl, List.length_ofFn, ?_⟩⟩
    intro i item there hitem hthere
    obtain ⟨hi, rfl⟩ := List.getElem?_eq_some_iff.1 hitem
    rw [List.getElem?_ofFn, dif_pos hi] at hthere
    exact Option.some.inj hthere ▸ hnode ⟨i, hi⟩

/-- **An object has a tree** when it includes only files that are not being expanded already and
whose objects have one, its public block is an object that has one, and its own members have
one and names of their own. -/
theorem expands_object_iff {members : Members Document} :
    source.Expands scope (.object members) ↔
      (∀ text ∈ Directive.texts members, scope.target text ∉ scope.chain ∧
        ∃ contents, source.Holds (scope.target text) contents ∧
          source.Expands (scope.enter (scope.target text)) (.object contents)) ∧
      (∀ d, members.get? Directive.publicKey = some d →
        ∃ block, d = .object block ∧ source.Expands scope.inBlock d) ∧
      ((Directive.ordinary members).keys.map Directive.name).Nodup ∧
      ∀ member ∈ Directive.ordinary members,
        source.Expands (scope.member (Directive.name member.1)) member.2 := by
  constructor
  · rintro ⟨node, h⟩
    obtain ⟨tree, -, htree⟩ := tree_object_eq_ok_iff.1 h
    obtain ⟨trees, block, own, htrees, hblock, hnames, hentries, -⟩ :=
      objectTree_eq_ok_iff.1 htree
    refine ⟨fun text htext => ?_, fun d hd => ?_, hnames, fun member hmember => ?_⟩
    · obtain ⟨tree, -, hchain, contents, hholds, htree⟩ := exists_right_of_forall₂ htrees htext
      exact ⟨hchain, contents, hholds, _, tree_object_of_eq_ok htree⟩
    · rcases blockTree_eq_ok_iff.1 hblock with ⟨hnone, -⟩ | ⟨contents, hcontents, hblock⟩
      · simp [hnone] at hd
      · obtain rfl : .object contents = d := Option.some.inj (hcontents.symm.trans hd)
        exact ⟨contents, rfl, _, tree_object_of_eq_ok hblock⟩
    · obtain ⟨entry, -, -, -, htree⟩ := exists_right_of_forall₂ hentries hmember
      exact ⟨_, htree⟩
  · rintro ⟨hincluded, hpublic, hnames, hown⟩
    obtain ⟨trees, htrees⟩ := exists_forall₂_iff.2 fun text htext => by
      obtain ⟨hchain, contents, hholds, node, hnode⟩ := hincluded text htext
      obtain ⟨tree, -, htree⟩ := tree_object_eq_ok_iff.1 hnode
      exact (⟨tree, hchain, contents, hholds, htree⟩ : ∃ tree, source.Included scope text tree)
    obtain ⟨block, hblock⟩ : ∃ block, source.blockTree scope members = .ok block := by
      rcases hd : members.get? Directive.publicKey with _ | d
      · exact ⟨[], blockTree_eq_ok_iff.2 (Or.inl ⟨hd, rfl⟩)⟩
      · obtain ⟨contents, rfl, node, hnode⟩ := hpublic d hd
        obtain ⟨tree, -, htree⟩ := tree_object_eq_ok_iff.1 hnode
        exact ⟨tree, blockTree_eq_ok_iff.2 (Or.inr ⟨contents, hd, htree⟩)⟩
    obtain ⟨own, hentries⟩ := exists_forall₂_iff.2 fun member hmember => by
      obtain ⟨node, hnode⟩ := hown member hmember
      exact (⟨(_, _, node), rfl, rfl, hnode⟩ : ∃ entry, source.Entry scope member entry)
    exact ⟨_, tree_object_eq_ok_iff.2 ⟨_, rfl, objectTree_eq_ok_iff.2
      ⟨trees, block, own, htrees, hblock, hnames, hentries, rfl⟩⟩⟩

end Source

/-! ### Induction along expansions -/

namespace Document

theorem size_le_sizeItems {items : List Document} {d : Document} (h : d ∈ items) :
    d.size ≤ sizeItems items := by
  induction items with
  | nil => simp at h
  | cons item rest ih =>
    rw [sizeItems]
    rcases List.mem_cons.1 h with rfl | h
    · omega
    · have := ih h
      omega

theorem size_le_sizeMembers_of_mem {members : Members Document} {member : String × Document}
    (h : member ∈ members) : member.2.size ≤ sizeMembers members := by
  induction members with
  | nil => simp at h
  | cons first rest ih =>
    rw [sizeMembers]
    rcases List.mem_cons.1 h with rfl | h
    · omega
    · have := ih h
      omega

end Document

namespace Source

/-- **Induction along expansions**: from an array to its items, and from an object to its
public block, to the values of its members and to the objects in the files that it
includes, as long as these are not being expanded already. -/
theorem expansion_induction (source : Source) {motive : Scope → Document → Prop}
    (scalar : ∀ scope s, motive scope (.scalar s))
    (array : ∀ scope items, (∀ i item, items[i]? = some item → motive (scope.item i) item) →
      motive scope (.array items))
    (object : ∀ scope members,
      (∀ text contents, scope.target text ∉ scope.chain →
        source.Holds (scope.target text) contents →
          motive (scope.enter (scope.target text)) (.object contents)) →
      (∀ block, members.get? Directive.publicKey = some (.object block) →
        motive scope.inBlock (.object block)) →
      (∀ member ∈ Directive.ordinary members,
        motive (scope.member (Directive.name member.1)) member.2) →
      motive scope (.object members)) : ∀ scope d, motive scope d
  | scope, .scalar s => scalar scope s
  | scope, .array items => array scope items fun i item _hitem =>
    expansion_induction source scalar array object (scope.item i) item
  | scope, .object members => object scope members
    (fun text contents _hnew _hholds => expansion_induction source scalar array object _ _)
    (fun block _hblock => expansion_induction source scalar array object _ _)
    fun member _hmember => expansion_induction source scalar array object _ _
termination_by scope d => (source.unvisited scope.chain, d.size)
decreasing_by
  · have := Document.size_le_sizeItems (List.mem_of_getElem? _hitem)
    exact .right _ (by simp only [Document.size]; omega)
  · exact .left _ _ (Source.unvisited_append_lt _hholds.readable _hnew)
  · have := Document.size_le_sizeMembers _hblock
    exact .right _ (by simp only [Document.size] at this ⊢; omega)
  · have := Document.size_le_sizeMembers_of_mem _hmember
    have := Directive.sizeMembers_ordinary_le members
    exact .right _ (by simp only [Document.size]; omega)

end Source

end ConfigTree
