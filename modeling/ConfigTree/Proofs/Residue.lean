import ConfigTree.Proofs.Provenance

/-!
# Keys of the merged tree

Every key of a merged tree is the name of a member of a file that was read
(`ConfigTree.Source.traces_members`). A name is a key without one mark, and only one is removed: so
the key of a directive, or a key with a mark, can be left in the tree, but only by a member whose
key has a mark after it. Where no member is written so, no directive and no mark is left anywhere,
and the public subset is one more member of the whole (`ConfigTree.config_residue`).
-/

namespace ConfigTree

open ValuePath

namespace Directive

/-- **Reserved keys**: those of the two directives, and those with a mark. -/
def IsReserved (key : String) : Prop :=
  key = includeKey ∨ key = publicKey ∨ ∃ stem, IsMarkedAs key stem

instance (key : String) : Decidable (IsReserved key) := inferInstanceAs (Decidable (_ ∨ _ ∨ _))

/-- The name of an ordinary key is reserved only where the key has a mark after it. -/
theorem IsName.isMarkedAs {key name : String} (h : IsName key name) (hinclude : key ≠ includeKey)
    (hpublic : key ≠ publicKey) (hreserved : IsReserved name) : IsMarkedAs key name := by
  rcases h with hmarked | ⟨hunmarked, rfl⟩
  · exact hmarked
  · rcases hreserved with hname | hname | hname
    · exact absurd hname hinclude
    · exact absurd hname hpublic
    · exact absurd hname hunmarked

end Directive

/-- **No directive and no mark** is left in the document: no object in it has a reserved key. -/
def Document.Clean (d : Document) : Prop :=
  ∀ p members, d.find? p = some (.object members) →
    ∀ key ∈ Members.keys members, ¬Directive.IsReserved key

/-- What a tree holds at a path, without its marks. -/
theorem Marked.find?_plain (entry : Bool × Marked) (p : ValuePath) :
    entry.2.plain.find? p = (Marked.follow entry p).map (·.2.plain) := by
  induction p generalizing entry with
  | nil => rfl
  | cons step rest ih =>
    rw [Document.find?_cons, Marked.child?_plain, Marked.follow_cons]
    rcases entry.2.child? step with _ | next
    · rfl
    · exact ih next

namespace Source

variable {source : Source} {root : FilePath}

/-- **Whatever a tree holds traces back** to members and items. -/
theorem traces_members : source.Traces root (fun _ => True) fun p =>
    (∃ above i, p = index above i) ∨
      ∃ file key isPublic value, source.MemberAt root file p key isPublic value where
  merge _ _ _ := Or.inl trivial
  member {scope _ _ member _} hoccurs hmember _ _ :=
    Or.inr ⟨scope.file, member.1, scope.isPublic, member.2, hoccurs.memberAt hmember⟩
  item {place i _} _ := Or.inl ⟨place, i, rfl⟩

/-- The key under which a member stands is the name of the key that it is written with. -/
theorem MemberAt.isMarkedAs {file : FilePath} {p : ValuePath} {key written : String}
    {isPublic : Bool} {value : Document}
    (h : source.MemberAt root file (p.key key) written isPublic value)
    (hreserved : Directive.IsReserved key) : Directive.IsMarkedAs written key := by
  obtain ⟨above, members, name, -, -, hinclude, hpublic, hname, hplace⟩ := h
  obtain ⟨-, hsteps⟩ := List.append_inj' hplace rfl
  obtain rfl : key = name := by simpa using hsteps
  exact hname.isMarkedAs hinclude hpublic hreserved

/-- **Every key of a merged tree is that of a member** of a file that was read. -/
theorem exists_memberAt {contents : Members Document} {tree : Members (Bool × Marked)}
    (hholds : source.Holds root contents)
    (htree : source.objectTree (.top root) contents = .ok tree) {p : ValuePath}
    {members : Members Document} (hmembers : (Marked.object tree).plain.find? p =
      some (.object members)) {key : String} (hkey : key ∈ members.keys) :
    ∃ file ∈ source.visited root, ∃ written isPublic value,
      source.MemberAt root file (p.key key) written isPublic value := by
  obtain ⟨value, hvalue⟩ := Option.isSome_iff_exists.1 (Members.has_iff.2 hkey)
  have hfind : (Marked.object tree).plain.find? (p.key key) = some value := by
    simp [ValuePath.key, Document.find?_append, hmembers, Document.find?_cons, Document.child?,
      hvalue]
  rw [Marked.find?_plain (false, .object tree)] at hfind
  obtain ⟨entry, hentry, -⟩ := Option.map_eq_some_iff.1 hfind
  rcases traces_members.tree (.root hholds) (tree_object_of_eq_ok htree) (by simp [ValuePath.key])
    hentry trivial with ⟨above, i, habove⟩ | ⟨file, written, isPublic, value, hmember⟩
  · have hsteps : p ++ [.key key] = above ++ [.index i] := habove
    simpa using (List.append_inj' hsteps rfl).2
  · obtain ⟨above, siblings, name, hoccurs, hmem⟩ := hmember
    obtain ⟨scope, node, hfile, -, harrives⟩ := hoccurs.arrives hholds htree
    exact ⟨file, harrives.visited file (Or.inl hfile.symm), written, isPublic, value,
      above, siblings, name, hoccurs, hmem⟩

end Source

/-- **The keys of a configuration.** Each is the name of a member of a file that was read, and it is
reserved only where that member is written with a mark after a reserved key. Where no member is,
no directive and no mark is left, and the whole with the public subset in it has one member more,
which is the last one. -/
theorem config_residue {env : Environment} {cwd path : String} {loaded : Loaded}
    (h : (load env cwd path).outcome = .ok loaded) :
    ∃ dir, env.directory cwd = .ok dir ∧
      (∀ p members key, loaded.config.find? p = some (.object members) →
        key ∈ Members.keys members →
        ∃ file ∈ loaded.files, ∃ written isPublic value,
          env.source.MemberAt (dir.resolve path) file (p.key key) written isPublic value ∧
            (Directive.IsReserved key → Directive.IsMarkedAs written key)) ∧
      ((∀ file ∈ loaded.files, ∀ p written isPublic value stem,
          env.source.MemberAt (dir.resolve path) file p written isPublic value →
          Directive.IsMarkedAs written stem → ¬Directive.IsReserved stem) →
        loaded.config.Clean ∧ loaded.combined =
          .object (loaded.members ++ [(Directive.publicKey, loaded.publicSubset)])) := by
  obtain ⟨-, dir, hdir, contents, tree, hholds, htree, rfl⟩ := load_eq_ok_iff.1 h
  have hkeys : ∀ p members key, (Document.object (Marked.plainMembers tree)).find? p =
      some (.object members) → key ∈ Members.keys members →
      ∃ file ∈ env.source.visited (dir.resolve path), ∃ written isPublic value,
        env.source.MemberAt (dir.resolve path) file (p.key key) written isPublic value ∧
          (Directive.IsReserved key → Directive.IsMarkedAs written key) := by
    intro p members key hmembers hkey
    obtain ⟨file, hfile, written, isPublic, value, hmember⟩ :=
      Source.exists_memberAt hholds htree (Marked.plain_object tree ▸ hmembers) hkey
    exact ⟨file, hfile, written, isPublic, value, hmember, hmember.isMarkedAs⟩
  refine ⟨dir, hdir, hkeys, fun hwritten => ?_⟩
  have hclean : (Document.object (Marked.plainMembers tree)).Clean := by
    intro p members hmembers key hkey hreserved
    obtain ⟨file, hfile, written, isPublic, value, hmember, hmarked⟩ :=
      hkeys p members key hmembers hkey
    exact hwritten file hfile _ written isPublic value key hmember (hmarked hreserved) hreserved
  refine ⟨hclean, congrArg Document.object (Members.put_eq_append ?_ _)⟩
  exact fun hpublic => hclean [] _ rfl _ hpublic (Or.inr (Or.inl rfl))

set_option maxRecDepth 4000 in
/-- A key with two marks leaves one of them, and the member of a public block replaces one that is
left with the key of such blocks. -/
theorem residue_of_two_marks :
    ∃ loaded, (load (MemoryFiles.ofDocuments [("/a", .object [
        ("k#public#public", .scalar .null), ("#public#public", .scalar (.bool true))])]).environment
          "/" "a").outcome = .ok loaded ∧
      ¬loaded.config.Clean ∧ loaded.combined ≠
        .object (loaded.members ++ [(Directive.publicKey, loaded.publicSubset)]) := by
  let loaded : Loaded := ⟨[("k#public", .scalar .null), ("#public", .scalar (.bool true))],
    [[.key "k#public"], [.key "#public"]], [FilePath.root.resolve "a"]⟩
  refine ⟨loaded, by cbv, fun hclean => ?_, by decide⟩
  exact hclean [] loaded.members rfl "#public" (by decide) (Or.inr (Or.inl rfl))

set_option maxRecDepth 4000 in
/-- Where no key has two marks, none is left; a mark without a name before it is no mark. -/
theorem config_of_single_marks :
    ∃ loaded, (load (MemoryFiles.ofDocuments [("/a", .object [
        ("k#public", .scalar .null), ("#PUBLIC", .scalar (.bool true))])]).environment
          "/" "a").outcome = .ok loaded ∧
      loaded.config.Clean ∧ loaded.combined =
        .object (loaded.members ++ [(Directive.publicKey, loaded.publicSubset)]) := by
  let contents : Members Document :=
    [("k#public", .scalar .null), ("#PUBLIC", .scalar (.bool true))]
  let env := (MemoryFiles.ofDocuments [("/a", .object contents)]).environment
  let root := FilePath.root.resolve "a"
  have h : (load env "/" "a").outcome = .ok
      ⟨[("k", .scalar .null), ("#PUBLIC", .scalar (.bool true))], [[.key "k"]], [root]⟩ := by cbv
  have hholds : env.source.Holds root contents := ⟨_, rfl, by cbv⟩
  obtain ⟨dir, hdir, -, hclean⟩ := config_residue h
  have hroot : env.directory "/" = .ok .root := by cbv
  obtain rfl : dir = .root := Except.ok.inj (hdir.symm.trans hroot)
  have hoccurs {file : FilePath} {place : ValuePath} {isPublic : Bool} {d : Document}
      (hd : env.source.Occurs root file place isPublic d) :
      d = .object contents ∨ ∃ s, d = .scalar s := by
    induction hd with
    | root hcontents => exact Or.inl (congrArg _ (hcontents.unique hholds))
    | block _ hget ih =>
      rcases ih with ih | ⟨s, ih⟩ <;> cases ih
      cases hget
    | member _ hmem _ _ _ ih =>
      rcases ih with ih | ⟨s, ih⟩ <;> cases ih
      simp only [contents, List.mem_cons, Prod.mk.injEq, List.not_mem_nil, or_false] at hmem
      rcases hmem with ⟨-, rfl⟩ | ⟨-, rfl⟩
      · exact Or.inr ⟨_, rfl⟩
      · exact Or.inr ⟨_, rfl⟩
    | item _ _ ih => rcases ih with ih | ⟨s, ih⟩ <;> cases ih
    | included _ hget _ _ ih =>
      rcases ih with ih | ⟨s, ih⟩ <;> cases ih
      cases hget
  refine ⟨_, h, hclean ?_⟩
  rintro file - p written isPublic value stem ⟨above, members, name, habove, hmem, -⟩ hmarked
  rcases hoccurs habove with hmembers | ⟨s, hs⟩
  · cases hmembers
    rw [← Directive.markedName?_eq_some_iff] at hmarked
    simp only [contents, List.mem_cons, Prod.mk.injEq, List.not_mem_nil, or_false] at hmem
    rcases hmem with ⟨rfl, -⟩ | ⟨rfl, -⟩
    · obtain rfl : "k" = stem := Option.some.inj (Eq.trans (by decide) hmarked)
      decide
    · cases hmarked.symm.trans (by decide : Directive.markedName? "#PUBLIC" = none)
  · cases hs

end ConfigTree
