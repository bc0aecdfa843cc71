import ConfigTree.Proofs.Cycles
import ConfigTree.Proofs.Grammar

/-!
# What an error points at

An error of a load is a fact about the file that it names (`ConfigTree.Source.Blames`): the file
cannot be used, or its document has an object, outside the values of include members, with a
public block that is no object or with two members of one name. The place that such an error names
is that of the object in its own file (`ConfigTree.Document.LiveAt`): it begins anew in an included
file and stays the same in a public block.

That file is the root file or one that it leads to, and it was asked for. Where the fault is that
it cannot be used, the load ended with that read (`ConfigTree.load_error_points_at_fault`).
-/

namespace ConfigTree

/-- **Live parts with their places**, by the names of members and the indices of items. A public
block stands at the place of its object. -/
inductive Document.LiveAt (root : Document) : ValuePath → Document → Prop
  /-- The document itself. -/
  | root : LiveAt root .root root
  /-- The public block of a live object. -/
  | block {place : ValuePath} {members : Members Document} {d : Document} :
      LiveAt root place (.object members) → members.get? Directive.publicKey = some d →
      LiveAt root place d
  /-- The value of another member of a live object, at the name of its key. -/
  | member {place : ValuePath} {members : Members Document} {key name : String} {d : Document} :
      LiveAt root place (.object members) → (key, d) ∈ members → key ≠ Directive.includeKey →
      key ≠ Directive.publicKey → Directive.IsName key name → LiveAt root (place.key name) d
  /-- An item of a live array. -/
  | item {place : ValuePath} {items : List Document} {i : Nat} {d : Document} :
      LiveAt root place (.array items) → items[i]? = some d → LiveAt root (place.index i) d

/-- **What an error says of a file** is true of it: the file cannot be used, or the error names the
place of an object in it that is at fault. -/
inductive Source.Blames (source : Source) (file : FilePath) : LoadError → Prop
  | unusable {e : LoadError} : source.Unusable file e → Blames source file e
  /-- The public block of the object is no object. -/
  | block {contents members : Members Document} {place : ValuePath} {d : Document} :
      source.Holds file contents → Document.LiveAt (.object contents) place (.object members) →
      members.get? Directive.publicKey = some d → (∀ block, d ≠ .object block) →
      Blames source file (.invalidPublicBlock file (place.key Directive.publicKey))
  /-- Two different keys of the object, other than those of directives, are of one name. -/
  | collision {contents members : Members Document} {place : ValuePath}
      {first second : String × Document} {name : String} :
      source.Holds file contents → Document.LiveAt (.object contents) place (.object members) →
      first ∈ Directive.ordinary members → second ∈ Directive.ordinary members →
      first.1 ≠ second.1 → Directive.IsName first.1 name → Directive.IsName second.1 name →
      Blames source file (.keyCollision file (place.key name) name)

namespace Document

theorem LiveAt.live {root d : Document} {place : ValuePath} (h : LiveAt root place d) :
    Live root d := by
  induction h with
  | root => exact .root
  | block _ hd ih => exact ih.block hd
  | member _ hmem hinclude hpublic _ ih => exact ih.member hmem hinclude hpublic
  | item _ hitem ih => exact ih.item (List.mem_of_getElem? hitem)

/-- Keys are distinct in every live part of a document in which they are. -/
theorem Live.distinct {root d : Document} (h : Live root d) (hroot : root.Distinct) :
    d.Distinct := by
  induction h with
  | root => exact hroot
  | block _ hd ih => exact distinctMembers_iff.1 ih.2 _ (Members.mem_of_get? hd)
  | member _ hmem _ _ ih => exact distinctMembers_iff.1 ih.2 _ hmem
  | item _ hmem ih => exact distinctItems_iff.1 ih _ hmem

end Document

namespace Source

open Document

variable {source : Source} {scope : Scope} {root file : FilePath} {e : LoadError}

/-- What a file holds has distinct keys. -/
theorem Holds.distinct {contents : Members Document} (h : source.Holds file contents) :
    (object contents).Distinct := by
  obtain ⟨text, -, hparse⟩ := h
  exact distinct_parse hparse

/-- The file that an error is about is the one that it names. -/
theorem Blames.file?_eq (h : source.Blames file e) : e.file? = some file := by
  cases h with
  | unusable h => exact h.file?_eq
  | block => rfl
  | collision => rfl

/-- Two members of a live object of a file stand under different keys. -/
theorem Holds.keys_ne {contents members : Members Document} {first second : String × Document}
    (h : source.Holds file contents) (hlive : Live (.object contents) (.object members))
    (hpair : [first, second].Sublist (Directive.ordinary members)) : first.1 ≠ second.1 := by
  obtain ⟨hkeys, -⟩ := hlive.distinct h.distinct
  have hordinary : (Directive.ordinary members).Distinct := (hkeys.erase _).erase _
  have hnodup : [first.1, second.1].Nodup := List.Nodup.sublist (hpair.map Prod.fst) hordinary
  simpa using hnodup

/-- **An expansion that fails, and not on a cycle, blames a file** that the root file leads to. -/
theorem blames_of_tree {d : Document} {contents : Members Document}
    (hcycle : ∀ again stack, e ≠ .cycle again stack) (hreaches : source.Reaches root scope.file)
    (hholds : source.Holds scope.file contents) (hlive : LiveAt (.object contents) scope.place d)
    (h : source.tree scope d = .error e) :
    ∃ file, source.Reaches root file ∧ source.Blames file e := by
  induction scope, d using expansion_induction source generalizing contents with
  | scalar scope s => nomatch (tree_scalar s).symm.trans h
  | array scope items ih =>
    obtain ⟨i, item, hitem, htree⟩ := tree_array_eq_error h
    exact ih i item hitem hreaches hholds (hlive.item hitem) htree
  | object scope members hincluded hblock hown =>
    cases raises_of_tree_object h with
    | @included text htext hfails =>
      have hnext : source.Reaches root (scope.target text) :=
        hreaches.tail (edge_of_mem_texts hholds hlive.live htext)
      cases hfails with
      | cycle _ he => exact absurd he (hcycle _ _)
      | contents he => exact ⟨_, hnext, .unusable (unusable_of_contents he)⟩
      | @tree next hnew hholds' htree =>
        -- in the included file, places begin at its root
        exact hincluded text next hnew hholds' hnext hholds' .root htree
    | noBlock hd hobject he => exact ⟨_, hreaches, he ▸ .block hholds hlive hd hobject⟩
    | block hd htree => exact hblock _ hd hreaches hholds (hlive.block hd) htree
    | @member member hmember htree =>
      obtain ⟨hmem, hinclude, hpublic⟩ := Directive.mem_ordinary.1 hmember
      exact hown member hmember hreaches hholds
        (hlive.member hmem hinclude hpublic (Directive.isName_iff.2 rfl)) htree
    | @collision first second hpair hnames he =>
      have hmem := hpair.subset
      exact ⟨_, hreaches, he ▸ .collision hholds hlive (hmem List.mem_cons_self)
        (hmem (List.mem_cons_of_mem _ List.mem_cons_self)) (hholds.keys_ne hlive.live hpair)
        (Directive.isName_iff.2 hnames) (Directive.isName_iff.2 rfl)⟩

/-- The same of the expansion of the root file. -/
theorem blames_of_expandRoot (hcycle : ∀ again stack, e ≠ .cycle again stack)
    (h : Load.outcome (Load.expandRoot root : Load source _) = .error e) :
    ∃ file, source.Reaches root file ∧ source.Blames file e := by
  rcases Load.outcome_expandRoot_eq_error.1 h with he | ⟨members, hholds, htree⟩
  · exact ⟨root, .refl, .unusable (unusable_of_contents he)⟩
  · have hreaches : source.Reaches root (Scope.top root).file := .refl
    exact blames_of_tree hcycle hreaches hholds .root htree

end Source

/-! ### Loads -/

/-- What is in a list, but not before its last element, is the last element. -/
theorem getLast?_of_not_mem_dropLast {α : Type} {xs : List α} {x : α} (h : x ∈ xs)
    (hlast : x ∉ xs.dropLast) : xs.getLast? = some x := by
  have hne : xs ≠ [] := List.ne_nil_of_mem h
  rw [← List.dropLast_append_getLast hne, List.mem_append, List.mem_singleton] at h
  rw [List.getLast?_eq_some_getLast hne, h.resolve_left hlast]

/-- **A file that cannot be used is the last one that was asked for.** -/
theorem Report.Accounted.getLast?_reads {source : Source} {report : Report} {e : LoadError}
    {file : FilePath} (h : report.Accounted source) (he : report.outcome = .error e)
    (hfile : source.Unusable file e) : report.reads.getLast? = some file := by
  refine getLast?_of_not_mem_dropLast (h.asked e file he hfile.file?_eq) fun hmem => ?_
  obtain ⟨members, hholds⟩ := h.held e he file hmem
  exact hfile.not_holds members hholds

/-- **An error points at a real fault.** A load with an empty path fails because of that, and no
other load does. With a path and a directory to start from, an error that is no cycle names a file
that the root file leads to and that was asked for; what it says of the file is true; and where it
says that the file cannot be used, this was the last read. -/
theorem load_error_points_at_fault {env : Environment} {cwd path : String} {e : LoadError}
    (h : (load env cwd path).outcome = .error e) (hcycle : ∀ again stack, e ≠ .cycle again stack) :
    ((load env cwd path).outcome = .error .missingPath ↔ path = "") ∧
      (path ≠ "" → cwd ≠ "" →
        (FilePath.isAbsolute cwd = true ∨ ∃ here, env.workingDirectory = .ok here) →
        ∃ dir file, env.directory cwd = .ok dir ∧ e.file? = some file ∧
          env.source.Reaches (dir.resolve path) file ∧ file ∈ (load env cwd path).reads ∧
          env.source.Blames file e ∧
          (env.source.Unusable file e → (load env cwd path).reads.getLast? = some file)) := by
  have haccounted := load_accounted env cwd path
  rw [h, Except.error.injEq]
  rcases load_eq_error_iff.1 h with ⟨hpath, rfl⟩ | ⟨hpath, cause, hcause, rfl⟩ |
    ⟨hpath, dir, hdir, hroot⟩
  · exact ⟨iff_of_true rfl hpath, fun hne => absurd hpath hne⟩
  · refine ⟨iff_of_false (by simp) hpath, fun _ hcwd hhere => ?_⟩
    obtain ⟨dir, hdir⟩ := env.exists_directory hcwd hhere
    nomatch hdir.symm.trans hcause
  · obtain ⟨file, hreaches, hfile⟩ := Source.blames_of_expandRoot hcycle hroot
    refine ⟨iff_of_false ?_ hpath, fun _ _ _ => ⟨dir, file, hdir, hfile.file?_eq, hreaches,
      haccounted.asked e file h hfile.file?_eq, hfile, haccounted.getLast?_reads h⟩⟩
    rintro rfl
    nomatch hfile.file?_eq

/-- An object with a key and the same key marked. -/
def clashingMembers : Members Document := [("k", .scalar .null), ("k#public", .scalar .null)]

theorem Source.tree_clashingMembers (source : Source) (scope : Scope) :
    source.tree scope (.object clashingMembers) =
      .error (.keyCollision scope.file (scope.place.key "k") "k") := by
  have hordinary : Directive.ordinary clashingMembers = clashingMembers := by decide
  have hplain : Directive.name "k" = "k" := by decide
  have hmarked : Directive.name "k#public" = "k" := by decide
  rw [tree_object_eq_error_iff, objectTree, Load.expandObject_eq, hordinary, clashingMembers,
    Load.expandMembers_cons, if_neg List.not_mem_nil, Load.expand, Load.expandMembers_cons, hplain,
    hmarked, if_pos List.mem_cons_self]
  rfl

set_option maxRecDepth 4000 in
/-- Two members of one name are at fault in the file that they stand in. -/
theorem fault_of_clashing_members :
    let env := (MemoryFiles.ofDocuments [("/a", .object clashingMembers)]).environment
    ∃ file, (load env "/" "a").outcome = .error (.keyCollision file [.key "k"] "k") ∧
      env.source.Reaches (FilePath.root.resolve "a") file ∧ file ∈ (load env "/" "a").reads := by
  let env := (MemoryFiles.ofDocuments [("/a", .object clashingMembers)]).environment
  have hroot : env.directory "/" = .ok .root := by cbv
  have hholds : env.source.Holds (FilePath.root.resolve "a") clashingMembers := ⟨_, rfl, by cbv⟩
  have h : (load env "/" "a").outcome =
      .error (.keyCollision (FilePath.root.resolve "a") [.key "k"] "k") :=
    load_eq_error_iff.2 (Or.inr (Or.inr ⟨by decide, .root, hroot,
      Load.outcome_expandRoot_eq_error.2
        (Or.inr ⟨_, hholds, env.source.tree_clashingMembers _⟩)⟩))
  obtain ⟨-, hfault⟩ := load_error_points_at_fault h (by simp)
  obtain ⟨dir, file, hdir, hfile, hreaches, hread, -⟩ :=
    hfault (by decide) (by decide) (Or.inl (by decide))
  obtain rfl : dir = .root := Except.ok.inj (hdir.symm.trans hroot)
  obtain rfl : FilePath.root.resolve "a" = file := Option.some.inj hfile
  exact ⟨_, h, hreaches, hread⟩

end ConfigTree
