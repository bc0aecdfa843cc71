import ConfigTree.MemoryFiles
import ConfigTree.Proofs.Merge
import ConfigTree.Proofs.Outcome
import Mathlib

/-!
# What is published

The public subset of a configuration holds what was made public and nothing else. Whether
it holds something at a place depends on the public paths only: on those that end there or
above it (`ConfigTree.ValuePath.Covered`), and on those that lead on from there
(`ConfigTree.ValuePath.Reached`).

The argument has two halves. An expanded tree repeats no key
(`ConfigTree.Source.distinct_tree`), so that its marks are found in the plain document and
list its members in order. And the subset mirrors the document along such paths
(`ConfigTree.Document.mirrors_subset`). Together they say what the subset holds at every
place (`ConfigTree.publicSubset_mirrors_config`).
-/

namespace ConfigTree

/-! ### Expanded trees repeat no key -/

namespace Marked

theorem distinct_foldl {trees : List (Members (Bool × Marked))}
    (h : ∀ tree ∈ trees, (object tree).Distinct) {merged : Members (Bool × Marked)}
    (hmerged : (object merged).Distinct) : (object (trees.foldl mergeMembers merged)).Distinct := by
  induction trees generalizing merged with
  | nil => exact hmerged
  | cons tree rest ih =>
    obtain ⟨htree, hrest⟩ := List.forall_mem_cons.1 h
    exact ih hrest (merge_object merged tree ▸ hmerged.merge htree)

theorem distinct_nil : (object []).Distinct := by
  rw [distinct_object_iff]
  exact ⟨List.nodup_nil, by simp⟩

end Marked

namespace Source

variable {source : Source}

variable {scope : Scope} {members : Members Document}

/-- The tree of a public block repeats no key if that holds of the object in the block. -/
theorem distinct_blockTree {block : Members (Bool × Marked)}
    (h : source.blockTree scope members = .ok block)
    (hblock : ∀ contents, members.get? Directive.publicKey = some (.object contents) → ∀ tree,
      source.objectTree scope.inBlock contents = .ok tree → (Marked.object tree).Distinct) :
    (Marked.object block).Distinct := by
  rcases blockTree_eq_ok_iff.1 h with ⟨-, rfl⟩ | ⟨contents, hcontents, htree⟩
  · exact Marked.distinct_nil
  · exact hblock contents hcontents block htree

/-- Entries under distinct names repeat no key if that holds of the trees in them. -/
theorem distinct_entries {own : Members (Bool × Marked)}
    (hnames : (members.keys.map Directive.name).Nodup)
    (h : List.Forall₂ (source.Entry scope) members own)
    (hown : ∀ member ∈ members, ∀ node,
      source.tree (scope.member (Directive.name member.1)) member.2 = .ok node → node.Distinct) :
    (Marked.object own).Distinct := by
  rw [Marked.Distinct, Marked.distinctMembers_iff, Members.Distinct, keys_of_entries h]
  refine ⟨hnames, fun entry hentry => ?_⟩
  obtain ⟨member, hmember, -, -, htree⟩ := exists_left_of_forall₂ h hentry
  exact hown member hmember _ htree

theorem distinct_objectTree {tree : Members (Bool × Marked)}
    (hincluded : ∀ text contents, scope.target text ∉ scope.chain →
      source.Holds (scope.target text) contents → ∀ tree,
        source.objectTree (scope.enter (scope.target text)) contents = .ok tree →
          (Marked.object tree).Distinct)
    (hblock : ∀ block, members.get? Directive.publicKey = some (.object block) → ∀ tree,
      source.objectTree scope.inBlock block = .ok tree → (Marked.object tree).Distinct)
    (hown : ∀ member ∈ Directive.ordinary members, ∀ node,
      source.tree (scope.member (Directive.name member.1)) member.2 = .ok node → node.Distinct)
    (h : source.objectTree scope members = .ok tree) : (Marked.object tree).Distinct := by
  obtain ⟨trees, block, own, htrees, hb, hnames, hentries, rfl⟩ := objectTree_eq_ok_iff.1 h
  have hfiles : (Marked.object (trees.foldl Marked.mergeMembers [])).Distinct := by
    refine Marked.distinct_foldl (fun tree htree => ?_) Marked.distinct_nil
    obtain ⟨text, -, hchain, contents, hholds, htree⟩ := exists_left_of_forall₂ htrees htree
    exact hincluded text contents hchain hholds tree htree
  rw [← Marked.merge_object, ← Marked.merge_object]
  exact (hfiles.merge (distinct_blockTree hb hblock)).merge (distinct_entries hnames hentries hown)

/-- **An expanded tree repeats no key** in any object. -/
theorem distinct_tree {d : Document} {node : Marked} (h : source.tree scope d = .ok node) :
    node.Distinct := by
  induction scope, d using expansion_induction source generalizing node with
  | scalar scope s =>
    rw [tree_scalar, Except.ok.injEq] at h
    subst h
    rw [Marked.Distinct]
    trivial
  | array scope items ih =>
    obtain ⟨nodes, rfl, hlength, hnodes⟩ := tree_array_eq_ok_iff.1 h
    rw [Marked.Distinct, Marked.distinctItems_iff]
    intro node hnode
    obtain ⟨i, hi, rfl⟩ := List.getElem_of_mem hnode
    have hitem : items[i]? = some items[i] := List.getElem?_eq_getElem (by omega)
    exact ih i items[i] hitem (hnodes i _ _ hitem (List.getElem?_eq_getElem hi))
  | object scope members hincluded hblock hown =>
    obtain ⟨tree, rfl, htree⟩ := tree_object_eq_ok_iff.1 h
    refine distinct_objectTree (fun text contents hchain hholds tree htree => ?_)
      (fun block hb tree htree => ?_) (fun member hmember node => hown member hmember) htree
    · exact hincluded text contents hchain hholds (tree_object_of_eq_ok htree)
    · exact hblock block hb (tree_object_of_eq_ok htree)

theorem Included.distinct {text : String} {tree : Members (Bool × Marked)}
    (h : source.Included scope text tree) : (Marked.object tree).Distinct := by
  obtain ⟨-, contents, -, htree⟩ := h
  exact distinct_tree (tree_object_of_eq_ok htree)

end Source

/-! ### Places and public paths -/

namespace ValuePath

/-- Some of these paths ends at `q` or above it. -/
def Covered (paths : List ValuePath) (q : ValuePath) : Prop := ∃ p ∈ paths, p <+: q

/-- Some of these paths leads through `q` or ends there. -/
def Reached (paths : List ValuePath) (q : ValuePath) : Prop := ∃ p ∈ paths, q <+: p

instance (paths : List ValuePath) (q : ValuePath) : Decidable (Covered paths q) :=
  inferInstanceAs (Decidable (∃ p ∈ paths, p <+: q))

instance (paths : List ValuePath) (q : ValuePath) : Decidable (Reached paths q) :=
  inferInstanceAs (Decidable (∃ p ∈ paths, q <+: p))

/-- A place below a step is covered by what follows the step on the paths that begin with it. -/
theorem covered_cons_iff {paths : List ValuePath} {step : Step} {q : ValuePath}
    (hroot : [] ∉ paths) : Covered paths (step :: q) ↔ Covered (tails step paths) q := by
  constructor
  · rintro ⟨_ | ⟨first, rest⟩, hp, hpre⟩
    · exact absurd hp hroot
    · obtain ⟨rfl, hrest⟩ := List.cons_prefix_cons.1 hpre
      exact ⟨rest, mem_tails.2 hp, hrest⟩
  · rintro ⟨rest, hrest, hpre⟩
    exact ⟨step :: rest, mem_tails.1 hrest, List.cons_prefix_cons.2 ⟨rfl, hpre⟩⟩

theorem reached_iff_tailsAt {paths : List ValuePath} {q : ValuePath} :
    Reached paths q ↔ tailsAt q paths ≠ [] := by
  constructor
  · rintro ⟨_, hp, rest, rfl⟩
    exact List.ne_nil_of_mem (mem_tailsAt.2 hp)
  · intro hway
    obtain ⟨rest, hrest⟩ := List.exists_mem_of_ne_nil _ hway
    exact ⟨q ++ rest, mem_tailsAt.1 hrest, List.prefix_append q rest⟩

theorem reached_key_iff {paths : List ValuePath} {q : ValuePath} {name : String} :
    Reached paths (key q name) ↔ name ∈ nextKeys (tailsAt q paths) := by
  rw [mem_nextKeys]
  constructor
  · rintro ⟨_, hp, rest, rfl⟩
    exact ⟨rest, mem_tailsAt.2 (by simpa [key] using hp)⟩
  · rintro ⟨rest, hrest⟩
    exact ⟨key q name ++ rest, by simpa [key] using mem_tailsAt.1 hrest, List.prefix_append _ rest⟩

theorem reached_index_iff {paths : List ValuePath} {q : ValuePath} {i : Nat} :
    Reached paths (index q i) ↔ ∃ rest, .index i :: rest ∈ tailsAt q paths := by
  constructor
  · rintro ⟨_, hp, rest, rfl⟩
    exact ⟨rest, mem_tailsAt.2 (by simpa [index] using hp)⟩
  · rintro ⟨rest, hrest⟩
    exact ⟨index q i ++ rest, by simpa [index] using mem_tailsAt.1 hrest,
      List.prefix_append _ rest⟩

end ValuePath

/-- The part of a list without repetitions is what it selects. -/
theorem eq_filter_of_sublist {α : Type} [DecidableEq α] {xs ys : List α} {p : α → Bool}
    (h : xs.Sublist ys) (hnodup : ys.Nodup) (hp : ∀ y ∈ ys, p y = true ↔ y ∈ xs) :
    xs = ys.filter p := by
  have hall : xs.filter p = xs := List.filter_eq_self.2 fun x hx => (hp x (h.subset hx)).2 hx
  have hsub : (ys.filter p).Subperm xs := List.subperm_of_subset (hnodup.filter p) fun y hy =>
    (hp y (List.mem_filter.1 hy).1).1 (List.mem_filter.1 hy).2
  exact (hall ▸ h.filter p : xs.Sublist (ys.filter p)).eq_of_length_le hsub.length_le

/-! ### The subset of an expanded tree -/

namespace Marked

open ValuePath

variable {t : Marked} {q : ValuePath}

/-- At a public path and below it, the subset holds what the whole does. -/
theorem find?_subset_of_covered (h : t.Distinct) (hq : Covered t.publicPaths q) :
    (t.plain.subset t.publicPaths).find? q = t.plain.find? q := by
  obtain ⟨p, hp, rest, rfl⟩ := hq
  obtain ⟨value, hvalue⟩ := find?_plain_of_mem h hp
  have hmirrors := Document.mirrors_subset (List.ne_nil_of_mem hp) fun p => find?_plain_of_mem h
  rw [Document.find?_append, Document.find?_append, hmirrors.find?_of_mem hp hvalue, hvalue]

/-- On the way to public paths, the subset holds an object or array as the whole does, with
the members that lead on or up to the last such item. -/
theorem subset_on_way (h : t.Distinct) (hcovered : ¬Covered t.publicPaths q)
    (hreached : Reached t.publicPaths q) :
    (∃ members part : Members Document, t.plain.find? q = some (.object members) ∧
        (t.plain.subset t.publicPaths).find? q = some (.object part) ∧
        part.keys = members.keys.filter fun name => Reached t.publicPaths (key q name)) ∨
      ∃ items part, t.plain.find? q = some (.array items) ∧
        (t.plain.subset t.publicPaths).find? q = some (.array part) ∧
        ∃ last, IsGreatest {i | Reached t.publicPaths (index q i)} last ∧
          part.length = last + 1 := by
  have hway := reached_iff_tailsAt.1 hreached
  have habove : ∀ p ∈ t.publicPaths, ¬p <+: q := fun p hp hpre => hcovered ⟨p, hp, hpre⟩
  obtain ⟨_, hp, -⟩ := hreached
  have hmirrors := Document.mirrors_subset (List.ne_nil_of_mem hp) fun p => find?_plain_of_mem h
  obtain ⟨there, here, hthere, hhere, hchild⟩ :=
    hmirrors.find?_on_way (fun p => find?_plain_of_mem h) habove hway
  obtain ⟨node, hnode, rfl, htails⟩ := tailsAt_publicPaths h habove hthere
  rw [hthere, hhere]
  simp only [reached_key_iff, reached_index_iff]
  rw [htails] at hway hchild ⊢
  rcases hchild.object_or_array hway (nil_not_mem_publicPaths node) with
    ⟨members, part, hmembers, rfl, hkeys⟩ | ⟨items, part, hitems, rfl, hlength⟩
  · refine Or.inl ⟨members, part, by rw [hmembers], rfl, ?_⟩
    rcases node with s | items | marks <;> simp only [plain, reduceCtorEq] at hmembers
    obtain rfl := Document.object.inj hmembers
    rw [publicPaths] at hkeys ⊢
    rw [Distinct] at hnode
    rw [keys_plainMembers, hkeys]
    -- the paths lead on in the order of the members
    exact eq_filter_of_sublist (nextKeys_memberPaths marks) hnode.1 fun name _ => decide_eq_true_iff
  · refine Or.inr ⟨items, part, by rw [hitems], rfl, ?_⟩
    rcases node with s | marks | members <;> simp only [plain, reduceCtorEq] at hitems
    rw [publicPaths] at hway hlength ⊢
    -- some path leads on to an item, so there is a last one
    obtain ⟨p, hp⟩ := List.exists_mem_of_ne_nil _ hway
    obtain ⟨i, rest, rfl, -⟩ := eq_index_of_mem_itemPaths hp
    have hpos := lt_nextLength_iff.2 ⟨i, rest, le_rfl, hp⟩
    obtain ⟨last, hlast⟩ := Nat.exists_eq_add_one_of_ne_zero (Nat.ne_zero_of_lt hpos)
    exact ⟨last, isGreatest_of_nextLength hlast, hlength.trans hlast⟩

/-- Apart from public paths, the subset holds nothing but `null` in front of an item that one
of them leads to. -/
theorem subset_apart (h : t.Distinct) (hcovered : ¬Covered t.publicPaths q)
    (hreached : ¬Reached t.publicPaths q) (hq : q ≠ []) {here : Document}
    (hhere : (t.plain.subset t.publicPaths).find? q = some here) :
    here = .null ∧ ∃ above i j, q = index above i ∧ i < j ∧
      Reached t.publicPaths (index above j) := by
  rcases eq_or_ne t.publicPaths [] with hnil | hne
  · rw [hnil] at hhere
    rcases q with _ | ⟨_ | _, rest⟩
    · exact absurd rfl hq
    · simp [Document.subset, Document.find?_cons, Document.child?] at hhere
    · simp [Document.subset, Document.find?_cons, Document.child?] at hhere
  · have hmirrors := Document.mirrors_subset hne fun p => find?_plain_of_mem h
    have hway : tailsAt q t.publicPaths = [] := not_not.1 fun hway =>
      hreached (reached_iff_tailsAt.2 hway)
    obtain ⟨hnull, above, i, j, rest, hqi, hij, hmem⟩ := hmirrors.find?_apart
      (fun p => find?_plain_of_mem h) (fun p hp hpre => hcovered ⟨p, hp, hpre⟩) hway hq hhere
    exact ⟨hnull, above, i, j, hqi, hij, _, hmem, List.prefix_append _ rest⟩

end Marked

open ValuePath

/-- **The public subset is what was made public, at its own places.** Every public path leads to
a value of the configuration. At a public path and below, the subset holds what the
configuration holds. On the way to public paths it holds an object or array as the
configuration does: an object with the members that lead on, in their order, and an array up to
the last item that does. Anywhere else it holds nothing, or `null` in front of an item that
leads to a public path. -/
theorem publicSubset_mirrors_config {env : Environment} {cwd path : String} {loaded : Loaded}
    (h : (load env cwd path).outcome = .ok loaded) :
    (loaded.publicPaths = [] → loaded.publicSubset = .object []) ∧
    (∀ p ∈ loaded.publicPaths, ∃ value, loaded.config.find? p = some value) ∧ ∀ q,
      (Covered loaded.publicPaths q → loaded.publicSubset.find? q = loaded.config.find? q) ∧
      (¬Covered loaded.publicPaths q → Reached loaded.publicPaths q →
        (∃ members part : Members Document,
            loaded.config.find? q = some (.object members) ∧
            loaded.publicSubset.find? q = some (.object part) ∧
            part.keys = members.keys.filter fun name => Reached loaded.publicPaths (q.key name)) ∨
          ∃ items part, loaded.config.find? q = some (.array items) ∧
            loaded.publicSubset.find? q = some (.array part) ∧
            ∃ last, IsGreatest {i | Reached loaded.publicPaths (q.index i)} last ∧
              part.length = last + 1) ∧
      (¬Covered loaded.publicPaths q → ¬Reached loaded.publicPaths q → q ≠ .root →
        loaded.publicSubset.find? q = none ∨ loaded.publicSubset.find? q = some .null ∧
          ∃ above i j, q = index above i ∧ i < j ∧ Reached loaded.publicPaths (above.index j)) := by
  obtain ⟨-, dir, -, members, tree, -, htree, rfl⟩ := load_eq_ok_iff.1 h
  have hdistinct : (Marked.object tree).Distinct :=
    Source.distinct_tree (Source.tree_object_of_eq_ok htree)
  have hpaths : (Marked.object tree).publicPaths = Marked.memberPaths tree := by
    rw [Marked.publicPaths]
  have hplain : (Marked.object tree).plain = .object (Marked.plainMembers tree) := by
    rw [Marked.plain]
  simp only [Loaded.publicSubset, Loaded.config, ← hpaths, ← hplain]
  refine ⟨fun hnil => by rw [hnil]; rfl, fun p => Marked.find?_plain_of_mem hdistinct,
    fun q => ⟨?_, ?_, ?_⟩⟩
  · exact Marked.find?_subset_of_covered hdistinct
  · exact Marked.subset_on_way hdistinct
  · intro hcovered hreached hq
    rcases hhere : ((Marked.object tree).plain.subset (Marked.object tree).publicPaths).find? q
      with _ | here
    · exact Or.inl rfl
    · obtain ⟨rfl, hapart⟩ := Marked.subset_apart hdistinct hcovered hreached hq hhere
      exact Or.inr ⟨rfl, hapart⟩

set_option maxRecDepth 4000 in
/-- An item of an array with a marked member keeps its index, and what is beside it is left
out. -/
theorem publicSubset_of_marked_item :
    ∃ loaded, (load (MemoryFiles.ofDocuments [("/a", .object [
        ("list", .array [.scalar (.bool true), .object [("k#public", .scalar (.bool true))]]),
        ("secret", .scalar (.bool true))])]).environment "/" "a").outcome = .ok loaded ∧
      loaded.publicSubset.find? [.key "list", .index 1, .key "k"] = some (.scalar (.bool true)) ∧
      loaded.publicSubset.find? [.key "list", .index 0] ≠ some (.scalar (.bool true)) ∧
      loaded.publicSubset.find? [.key "secret"] = none := by
  let items : List Document := [.scalar (.bool true), .object [("k", .scalar (.bool true))]]
  let loaded : Loaded := ⟨[("list", .array items), ("secret", .scalar (.bool true))],
    [[.key "list", .index 1, .key "k"]], [FilePath.root.resolve "a"]⟩
  have h : (load (MemoryFiles.ofDocuments [("/a", .object [
      ("list", .array [.scalar (.bool true), .object [("k#public", .scalar (.bool true))]]),
      ("secret", .scalar (.bool true))])]).environment "/" "a").outcome = .ok loaded := by cbv
  obtain ⟨-, -, hplaces⟩ := publicSubset_mirrors_config h
  refine ⟨loaded, h, ?_, fun hitem => ?_, ?_⟩
  · rw [(hplaces [.key "list", .index 1, .key "k"]).1 (by decide)]
    rfl
  · have hapart := (hplaces [.key "list", .index 0]).2.2 (by decide) (by decide) (by decide)
    rw [hitem] at hapart
    simp [Document.null] at hapart
  · rcases (hplaces [.key "secret"]).2.2 (by decide) (by decide) (by decide) with hnone | hnull
    · exact hnone
    · obtain ⟨-, above, i, j, heq, -⟩ := hnull
      cases above <;> simp [index] at heq

end ConfigTree
