import ConfigTree.MemoryFiles
import ConfigTree.Proofs.MemberOrder
import ConfigTree.Proofs.Relisting

/-!
# Including a file again

A file that an include member lists more than once counts only once. Directly after itself it
changes nothing (`ConfigTree.Source.RepeatsIncludes`): its tree is merged again into what it has
just been merged into, and its walk comes to no new file. And if it comes again later in the list,
it can be left out before (`ConfigTree.Source.DropsIncludes`), which changes no more than the order
of members and files. Both are ways to thin a list (`ConfigTree.thinning_repeats`,
`ConfigTree.thinning_drops`), and what they come to in a whole load is
`ConfigTree.repetitions_are_harmless`.
-/

namespace ConfigTree

/-! ### Two congruences -/

theorem treeCongruence_eq : TreeCongruence Eq where
  refl _ := rfl
  trans := Eq.trans
  array h := congrArg _ (List.forall₂_eq_eq_eq ▸ h)
  object h := by
    refine congrArg _ ?_
    induction h with
    | nil => rfl
    | cons hmember _ ih =>
      obtain ⟨⟨rfl⟩⟩ := hmember
      rw [ih]
  merge h h' _ _ := congrArg₂ _ h h'

theorem treeCongruence_reordered : TreeCongruence Marked.Reordered where
  refl := .refl
  trans := .trans
  array := .array
  object h := .object h (.refl _)
  merge := .merge

/-! ### Two ways to thin a list -/

/-- **Walks that visit the same**, whatever has been visited before. -/
def SameVisits (walk walk' : List FilePath) : Prop :=
  ∀ seen, Progress.visitAll seen walk = Progress.visitAll seen walk'

theorem Progress.visitAll_of_subset {seen walk : List FilePath} (h : walk ⊆ seen) :
    visitAll seen walk = seen := by
  induction walk with
  | nil => rfl
  | cons path walk ih =>
    obtain ⟨hpath, hwalk⟩ := List.cons_subset.1 h
    rw [visitAll_cons, visit_of_mem hpath, ih hwalk]

/-- What has just been visited is not visited again. -/
theorem Progress.visitAll_again (seen walk : List FilePath) :
    visitAll (visitAll seen walk) walk = visitAll seen walk :=
  visitAll_of_subset fun _ hpath => mem_visitAll.2 (Or.inr hpath)

theorem sameVisits_of_stutters {walks walks' : List (List FilePath)} (h : Stutters walks' walks) :
    SameVisits walks.flatten walks'.flatten := by
  induction h with
  | nil => exact fun _ => rfl
  | keep walk _ ih =>
    intro seen
    rw [List.flatten_cons, List.flatten_cons, Progress.visitAll_append, Progress.visitAll_append,
      ih]
  | again _ ih =>
    intro seen
    rw [ih, List.flatten_cons, List.flatten_cons, List.flatten_cons, Progress.visitAll_append,
      Progress.visitAll_append, Progress.visitAll_append, Progress.visitAll_again]

/-- **Repeating files directly after themselves** changes no tree and no visit. -/
theorem thinning_repeats : Thinning (fun xs ys => Stutters ys xs) Eq SameVisits where
  nil := .nil
  map f _ _ h := h.map f
  mem_iff h _ := h.dropsEarlier.mem_iff.symm
  trees := treeCongruence_eq
  foldl h hbase hdistinct := (Marked.foldl_merge_of_stutters h hbase fun t ht =>
    hdistinct t (h.dropsEarlier.mem_iff.1 ht)).symm
  walk_refl _ _ := rfl
  walk_trans h h' seen := (h seen).trans (h' seen)
  walk_append h h' seen := by
    rw [Progress.visitAll_append, Progress.visitAll_append, h, h']
  walk_flatten := sameVisits_of_stutters

/-- **Dropping files that come again later** keeps trees up to the order of members, and the files
that are visited. -/
theorem thinning_drops : Thinning (fun xs ys => DropsEarlier xs ys) Marked.Reordered
    fun walk walk' => ∀ path, path ∈ walk ↔ path ∈ walk' where
  nil := .nil
  map f _ _ h := h.map f
  mem_iff h _ := h.mem_iff
  trees := treeCongruence_reordered
  foldl := Marked.reordered_foldl_of_dropsEarlier
  walk_refl _ _ := Iff.rfl
  walk_trans h h' path := (h path).trans (h' path)
  walk_append h h' path := by rw [List.mem_append, List.mem_append, h, h']
  walk_flatten h path := by simp only [List.mem_flatten, h.mem_iff]

/-! ### Loads -/

/-- **A source with repeated includes**: include members list files again directly after
themselves. -/
def Source.RepeatsIncludes (source other : Source) : Prop :=
  source.Relists (fun files files' => Stutters files' files) other

/-- **A source with fewer includes**: from lists in include members files are dropped that come
again later in the list. -/
def Source.DropsIncludes (source other : Source) : Prop :=
  source.Relists (fun files files' => DropsEarlier files files') other

section Loads

variable {env : Environment} {other : Source} {cwd path : String} {loaded : Loaded}

theorem load_repeatsIncludes (h : env.source.RepeatsIncludes other)
    (hload : (load env cwd path).outcome = .ok loaded) :
    (load { env with source := other } cwd path).outcome = .ok loaded := by
  obtain ⟨root, tree, tree', walk, walk', -, htree, hwalk, rfl, hother⟩ :=
    thinning_repeats.load h hload
  obtain rfl := Marked.object.inj htree
  rw [hother, Progress.visitAll_cons, Progress.visitAll_cons, hwalk]

theorem load_dropsIncludes (h : env.source.DropsIncludes other)
    (hload : (load env cwd path).outcome = .ok loaded) :
    ∃ loaded', (load { env with source := other } cwd path).outcome = .ok loaded' ∧
      loaded.Reordered loaded' := by
  obtain ⟨root, tree, tree', walk, walk', hdistinct, htree, hwalk, rfl, hother⟩ :=
    thinning_drops.load h hload
  refine ⟨_, hother, htree.loaded hdistinct ?_⟩
  refine (List.perm_ext_iff_of_nodup (Progress.nodup_visitAll List.nodup_nil _)
    (Progress.nodup_visitAll List.nodup_nil _)).2 fun file => ?_
  simp only [Progress.mem_visitAll, List.mem_cons, hwalk]

end Loads

/-- **Repetitions are harmless.** In a chain of trees that are merged from left to right, trees
that follow directly after equal ones change nothing, and trees that come again later can be
dropped without a change but in the order of members; and merging a tree into itself, or what has
come of it, gives the same again. So it is with the files that include members list: a load that
succeeds gives exactly the same when files are repeated directly after themselves, and the same up
to order when files are dropped that come again later in the list. -/
theorem repetitions_are_harmless :
    (∀ trees trees' : List Marked, (∀ t ∈ trees, t.Distinct) → Stutters trees trees' →
      Marked.mergeAll trees = Marked.mergeAll trees') ∧
    (∀ trees trees' : List Marked, (∀ t ∈ trees, t.Distinct) → DropsEarlier trees trees' →
      Marked.Reordered (Marked.mergeAll trees) (Marked.mergeAll trees')) ∧
    (∀ a : Marked, a.Distinct → a.merge a = a) ∧
    (∀ a b : Marked, a.Distinct → b.Distinct → a.merge (a.merge b) = a.merge b) ∧
    ∀ (env : Environment) (other : Source) (cwd path : String) (loaded : Loaded),
      (load env cwd path).outcome = .ok loaded →
      (env.source.RepeatsIncludes other →
        (load { env with source := other } cwd path).outcome = .ok loaded) ∧
      (env.source.DropsIncludes other →
        ∃ loaded', (load { env with source := other } cwd path).outcome = .ok loaded' ∧
          Document.Reordered loaded.config loaded'.config ∧
          Document.Reordered loaded.publicSubset loaded'.publicSubset ∧
          loaded.publicPaths.Perm loaded'.publicPaths ∧ loaded.files.Perm loaded'.files) := by
  refine ⟨fun trees trees' hdistinct h => Marked.mergeAll_of_stutters h hdistinct,
    fun trees trees' hdistinct h => Marked.reordered_mergeAll_of_dropsEarlier h hdistinct,
    fun a => Marked.merge_self, fun a b => Marked.merge_merge_left, ?_⟩
  intro env other cwd path loaded hload
  refine ⟨fun h => load_repeatsIncludes h hload, fun h => ?_⟩
  obtain ⟨loaded', hload', hsame⟩ := load_dropsIncludes h hload
  exact ⟨loaded', hload', hsame.config, hsame.publicSubset, hsame.publicPaths, hsame.files⟩

/-- The members of a file that lists files in its include member. -/
def listing (texts : List String) : Members Document :=
  [("#include", .array (texts.map fun text => .scalar (.string text)))]

/-- A file that lists other files, and two of them. -/
def listingFiles (texts : List String) : MemoryFiles := .ofDocuments
  [("/a", .object (listing texts)), ("/b", .object [("x", .scalar .null)]),
    ("/c", .object [("y#public", .scalar .null)])]

theorem namedTexts_map_string {texts : List String} (h : "" ∉ texts) :
    Directive.namedTexts (texts.map fun text => .scalar (.string text)) = texts := by
  induction texts with
  | nil => rfl
  | cons text texts ih =>
    rw [List.mem_cons, not_or] at h
    rw [List.map_cons, Directive.namedTexts_cons_string (Ne.symm h.1), ih h.2]

section Listing

variable {texts texts' : List String}

theorem get?_listingFiles (texts texts' : List String) {path : FilePath}
    (hpath : path.text ≠ "/a") :
    (listingFiles texts).get? path.text = (listingFiles texts').get? path.text := by
  have hget (texts : List String) : (listingFiles texts).get? path.text =
      if "/a" = path.text then some ⟨.texts [(Document.object (listing texts)).compact], 0⟩
      else Members.get? [("/b", _), ("/c", _)] path.text := rfl
  rw [hget, hget, if_neg hpath.symm, if_neg hpath.symm]

variable (hholds : (listingFiles texts).source.Holds (FilePath.root.resolve "a") (listing texts))
  (htexts : "" ∉ texts)

include hholds htexts

/-- Such files differ in nothing but the files that are listed. -/
theorem listingFiles_relists {L : List FilePath → List FilePath → Prop} (hL : ∀ paths, L paths paths)
    (hholds' : (listingFiles texts').source.Holds (FilePath.root.resolve "a") (listing texts'))
    (htexts' : "" ∉ texts')
    (h : L (texts.map FilePath.root.resolve) (texts'.map FilePath.root.resolve)) :
    (listingFiles texts).source.Relists L (listingFiles texts').source := by
  intro path d hd
  by_cases hpath : path.text = "/a"
  · obtain rfl : FilePath.root.resolve "a" = path := FilePath.text_injective (by
      rw [hpath]
      decide)
    obtain rfl := Except.ok.inj (hd.symm.trans (Source.holds_iff.1 hholds))
    refine ⟨_, Source.holds_iff.1 hholds', .object (.some ?_) .nil⟩
    rw [← namedTexts_map_string htexts, ← namedTexts_map_string htexts'] at h
    exact h
  · refine ⟨d, ?_, .refl (fun _ => hL _) d⟩
    rwa [Source.document, MemoryFiles.answer_source, get?_listingFiles _ texts hpath,
      ← MemoryFiles.answer_source, ← Source.document]

theorem load_listingFiles (hmem : ∀ text ∈ texts, text = "b" ∨ text = "c") :
    ∃ loaded, (load (listingFiles texts).environment "/" "a").outcome = .ok loaded := by
  have hcontents {scope : Scope} {key : String}
      (hkey : Directive.ordinary [(key, .scalar .null)] = [(key, .scalar .null)])
      (hpublic : Members.get? [(key, Document.scalar .null)] Directive.publicKey = none)
      (hinclude : Members.get? [(key, Document.scalar .null)] Directive.includeKey = none) :
      (listingFiles texts).source.Expands scope (.object [(key, .scalar .null)]) := by
    refine Source.expands_object_iff.2 ⟨?_, by simp [hpublic], ?_, ?_⟩
    · simp [Directive.texts, hinclude]
    · rw [hkey]
      exact List.pairwise_singleton _ _
    · rw [hkey, List.forall_mem_singleton]
      exact Source.expands_scalar _
  have hexpands : (listingFiles texts).source.Expands (.top (FilePath.root.resolve "a"))
      (.object (listing texts)) := by
    have hlisted : Directive.texts (listing texts) = texts := by
      exact namedTexts_map_string htexts
    refine Source.expands_object_iff.2 ⟨?_, by rintro d ⟨⟩, List.nodup_nil, by rintro member ⟨⟩⟩
    rw [hlisted]
    intro text htext
    rcases hmem text htext with rfl | rfl
    · exact ⟨by decide, _, ⟨_, rfl, by cbv⟩, hcontents (by decide) (by decide) (by decide)⟩
    · exact ⟨by decide, _, ⟨_, rfl, by cbv⟩, hcontents (by decide) (by decide) (by decide)⟩
  obtain ⟨node, hnode⟩ := hexpands
  obtain ⟨tree, -, htree⟩ := Source.tree_object_eq_ok_iff.1 hnode
  exact ⟨_, load_eq_ok_iff.2 ⟨by decide, .root, by cbv, _, tree, hholds, htree, rfl⟩⟩

end Listing

/-- A file that is listed between two others, and listed again with one of them in between. -/
theorem repetitions_in_listed_files :
    ∃ (loaded loaded' : Loaded) (t u : Marked),
      (load (listingFiles ["b", "c", "b"]).environment "/" "a").outcome = .ok loaded ∧
      (load (listingFiles ["b", "c", "c", "b"]).environment "/" "a").outcome = .ok loaded ∧
      (load (listingFiles ["c", "b"]).environment "/" "a").outcome = .ok loaded' ∧
      Document.Reordered loaded.config loaded'.config ∧ loaded.files.Perm loaded'.files ∧
      t.Distinct ∧ u.Distinct ∧ Marked.mergeAll [t, t, u] = Marked.mergeAll [t, u] ∧
      Marked.Reordered (Marked.mergeAll [t, u, t]) (Marked.mergeAll [u, t]) ∧
      u.merge u = u ∧ t.merge (t.merge u) = t.merge u := by
  obtain ⟨hstutters, hdropped, hself, hleft, hloads⟩ := repetitions_are_harmless
  have hholds : (listingFiles ["b", "c", "b"]).source.Holds (FilePath.root.resolve "a")
      (listing ["b", "c", "b"]) := ⟨_, rfl, by cbv⟩
  have hrepeats : (listingFiles ["b", "c", "b"]).source.RepeatsIncludes
      (listingFiles ["b", "c", "c", "b"]).source :=
    listingFiles_relists hholds (by decide) .refl ⟨_, rfl, by cbv⟩ (by decide)
      (.keep _ (.again (.keep _ (.keep _ .nil))))
  have hdrops : (listingFiles ["b", "c", "b"]).source.DropsIncludes
      (listingFiles ["c", "b"]).source :=
    listingFiles_relists hholds (by decide) .refl ⟨_, rfl, by cbv⟩ (by decide)
      (.drop (by decide) (.keep _ (.keep _ .nil)))
  obtain ⟨loaded, hload⟩ := load_listingFiles hholds (by decide) (by decide)
  obtain ⟨loaded', hload', hconfig, -, -, hfiles⟩ := (hloads _ _ _ _ loaded hload).2 hdrops
  let t : Marked := .object [("x", true, .scalar .null)]
  let u : Marked := .object [("y", false, .scalar .null), ("x", false, .array [])]
  have ht : t.Distinct := by
    simp [t, Marked.Distinct, Marked.DistinctMembers, Members.Distinct, Members.keys]
  have hu : u.Distinct := by
    simp [u, Marked.Distinct, Marked.DistinctItems, Marked.DistinctMembers, Members.Distinct,
      Members.keys]
  exact ⟨loaded, loaded', t, u, hload, (hloads _ _ _ _ loaded hload).1 hrepeats, hload', hconfig,
    hfiles, ht, hu, hstutters [t, t, u] [t, u] (by simp [ht, hu]) (.again (.refl _)),
    hdropped [t, u, t] [u, t] (by simp [ht, hu]) (.drop (by simp) (.refl _)), hself u hu,
    hleft t u ht hu⟩

end ConfigTree
