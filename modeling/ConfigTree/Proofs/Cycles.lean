import ConfigTree.Proofs.Failures
import ConfigTree.Proofs.Faults
import ConfigTree.Proofs.Reads

/-!
# Reported cycles

A load that reports a cycle reports a real one: the chain begins at the root file, follows edges
from file to file without repetition, and its last file leads back to one on it
(`ConfigTree.Source.Closes`). Each of these files was read exactly once. Conversely, when nothing
but cycles can be at fault (`ConfigTree.Source.Wellformed`) and some file is on one, the load
reports a cycle. So a file that is included twice without being on a cycle is never reported
(`ConfigTree.load_reports_cycles`).

In one direction, every chain of an expansion follows edges, and the error is raised at its end
(`ConfigTree.Source.closes_of_tree`). In the other direction every other reason for an error is
excluded (`ConfigTree.Source.Wellformed.cycle_of_tree`).
-/

namespace ConfigTree

open Relation

namespace Source

open Document

variable {source : Source} {scope : Scope} {root : FilePath}

/-- **A chain of files follows edges** from the root file, and no file occurs in it twice. -/
structure Follows (source : Source) (root : FilePath) (chain : List FilePath) : Prop where
  head : chain.head? = some root
  nodup : chain.Nodup
  edges : List.IsChain source.Edge chain

/-- **A chain of files closes a cycle** at one of its files, to which its last file leads. -/
structure Closes (source : Source) (root : FilePath) (stack : List FilePath) (again : FilePath) :
    Prop where
  head : stack.head? = some root
  nodup : stack.Nodup
  /-- Each file leads to the next one, and the last one to the file that is found again. -/
  edges : List.IsChain source.Edge (stack ++ [again])
  mem : again ∈ stack

theorem follows_top (root : FilePath) : source.Follows root (Scope.top root).chain :=
  ⟨rfl, List.nodup_singleton root, List.isChain_singleton root⟩

/-- A chain is followed by every file that its last one leads to. -/
theorem Follows.edges_concat (h : source.Follows root scope.chain) {path : FilePath}
    (hedge : source.Edge scope.file path) : List.IsChain source.Edge (scope.chain ++ [path]) := by
  have hedges := h.edges
  rw [Scope.chain] at hedges ⊢
  rw [List.append_assoc, List.singleton_append, List.isChain_split]
  exact ⟨hedges, List.isChain_pair.2 hedge⟩

theorem Follows.enter (h : source.Follows root scope.chain) {path : FilePath}
    (hnew : path ∉ scope.chain) (hedge : source.Edge scope.file path) :
    source.Follows root (scope.enter path).chain := by
  refine ⟨?_, ?_, h.edges_concat hedge⟩
  · rw [Scope.chain_enter, List.head?_append, h.head, Option.some_or]
  · rw [Scope.chain_enter, ← List.concat_eq_append]
    exact List.Nodup.concat hnew h.nodup

/-! ### A reported cycle is one -/

/-- **An expansion reports a cycle** only where a chain that follows edges closes one. -/
theorem closes_of_tree {d : Document} {contents : Members Document} {again : FilePath}
    {stack : List FilePath} (hfollows : source.Follows root scope.chain)
    (hholds : source.Holds scope.file contents) (hlive : Live (.object contents) d)
    (h : source.tree scope d = .error (.cycle again stack)) : source.Closes root stack again := by
  induction scope, d using expansion_induction source generalizing contents with
  | scalar scope s => nomatch (tree_scalar s).symm.trans h
  | array scope items ih =>
    obtain ⟨i, item, hitem, htree⟩ := tree_array_eq_error h
    exact ih i item hitem hfollows hholds (hlive.item (List.mem_of_getElem? hitem)) htree
  | object scope members hincluded hblock hown =>
    cases raises_of_tree_object h with
    | @included text htext hfails =>
      have hedge := edge_of_mem_texts hholds hlive htext
      cases hfails with
      | cycle hmem he =>
        -- the chain closes here, at a file on it
        cases he
        exact ⟨hfollows.head, hfollows.nodup, hfollows.edges_concat hedge, hmem⟩
      | contents he => exact absurd he (contents_ne_cycle _ _ _)
      | @tree next hnew hnext htree =>
        exact hincluded text next hnew hnext (hfollows.enter hnew hedge) hnext .root htree
    | noBlock _ _ he => cases he
    | block hd htree => exact hblock _ hd hfollows hholds (hlive.block hd) htree
    | @member member hmember htree =>
      obtain ⟨hmem, hinclude, hpublic⟩ := Directive.mem_ordinary.1 hmember
      exact hown member hmember hfollows hholds (hlive.member hmem hinclude hpublic) htree
    | collision _ _ he => cases he

/-- From the root file and from the file itself, edges lead to a file at which a cycle closes. -/
theorem Closes.reaches {stack : List FilePath} {again : FilePath}
    (h : source.Closes root stack again) :
    source.Reaches root again ∧ TransGen source.Edge again again := by
  obtain ⟨before, after, rfl⟩ := List.append_of_mem h.mem
  -- on a chain of edges, every file leads to every later one
  have hpairs : List.Pairwise (TransGen source.Edge) (before ++ again :: after ++ [again]) :=
    (h.edges.imp fun _ _ => TransGen.single).pairwise
  rw [List.append_assoc, List.cons_append, List.pairwise_append, List.pairwise_cons] at hpairs
  obtain ⟨-, ⟨hagain, -⟩, hbefore⟩ := hpairs
  refine ⟨?_, hagain again (by simp)⟩
  rcases before with _ | ⟨first, before⟩
  · obtain rfl : again = root := Option.some.inj h.head
    exact .refl
  · obtain rfl : first = root := Option.some.inj h.head
    exact (hbefore first List.mem_cons_self again List.mem_cons_self).to_reflTransGen

/-! ### A cycle is reported -/

/-- **Nothing but cycles can be at fault** in a root file and the files that it leads to. -/
structure Wellformed (source : Source) (root : FilePath) : Prop where
  /-- Every file can be read, parses, and holds an object. -/
  readable : ∀ file, source.Reaches root file → ∃ contents, source.Holds file contents
  /-- Every public block is an object. -/
  blocks : ∀ file contents members d, source.Reaches root file → source.Holds file contents →
    Live (.object contents) (.object members) →
    Members.get? members Directive.publicKey = some d → ∃ block, d = .object block
  /-- No two members of an object get the same name. -/
  names : ∀ file contents members, source.Reaches root file → source.Holds file contents →
    Live (.object contents) (.object members) →
    (Directive.ordinary members).Pairwise fun first second =>
      ¬∃ name, Directive.IsName first.1 name ∧ Directive.IsName second.1 name

/-- A file that can be reached holds an object, so reading it does not fail. -/
theorem Wellformed.contents_ne_error (h : source.Wellformed root) {file : FilePath}
    (hreaches : source.Reaches root file) (e : LoadError) : source.contents file ≠ .error e := by
  obtain ⟨contents, hholds⟩ := h.readable file hreaches
  rw [contents_eq_ok_iff.2 hholds]
  simp

/-- **In well-formed files, what fails is a cycle.** -/
theorem Wellformed.cycle_of_tree (h : source.Wellformed root) {d : Document}
    {contents : Members Document} {e : LoadError} (hreaches : source.Reaches root scope.file)
    (hholds : source.Holds scope.file contents) (hlive : Live (.object contents) d)
    (htree : source.tree scope d = .error e) : ∃ again stack, e = .cycle again stack := by
  induction scope, d using expansion_induction source generalizing contents with
  | scalar scope s => nomatch (tree_scalar s).symm.trans htree
  | array scope items ih =>
    obtain ⟨i, item, hitem, htree⟩ := tree_array_eq_error htree
    exact ih i item hitem hreaches hholds (hlive.item (List.mem_of_getElem? hitem)) htree
  | object scope members hincluded hblock hown =>
    cases raises_of_tree_object htree with
    | @included text htext hfails =>
      have hnext : source.Reaches root (scope.target text) :=
        hreaches.tail (edge_of_mem_texts hholds hlive htext)
      cases hfails with
      | cycle _ he => exact ⟨_, _, he⟩
      | contents he => exact absurd he (h.contents_ne_error hnext e)
      | @tree next hnew hholds' htree =>
        -- the fault lies in the included file, which is well-formed too
        exact hincluded text next hnew hholds' hnext hholds' .root htree
    | noBlock hd hobject _ =>
      obtain ⟨block, hblock⟩ := h.blocks _ _ _ _ hreaches hholds hlive hd
      exact absurd hblock (hobject block)
    | block hd htree => exact hblock _ hd hreaches hholds (hlive.block hd) htree
    | @member member hmember htree =>
      obtain ⟨hmem, hinclude, hpublic⟩ := Directive.mem_ordinary.1 hmember
      exact hown member hmember hreaches hholds (hlive.member hmem hinclude hpublic) htree
    | collision hsub hnames _ =>
      have hapart := (h.names _ _ _ hreaches hholds hlive).sublist hsub
      exact absurd ⟨_, Directive.isName_iff.2 hnames, Directive.isName_iff.2 rfl⟩
        (List.pairwise_pair.1 hapart)

end Source

/-! ### Loads -/

/-- **Cycle reports are exact.** The chain that a load reports begins at the root file and follows
edges; it repeats no file, and its last file leads to the one that is found again, which is on it.
That file is on a cycle that the root file leads to. Each file of the chain was read exactly once.
Conversely, a load of well-formed files with a cycle among them reports one. -/
theorem load_reports_cycles (env : Environment) (cwd path : String) :
    (∀ again stack, (load env cwd path).outcome = .error (.cycle again stack) →
      ∃ dir, env.directory cwd = .ok dir ∧
        env.source.Closes (dir.resolve path) stack again ∧
        env.source.Reaches (dir.resolve path) again ∧ TransGen env.source.Edge again again ∧
        ∀ file ∈ stack, (load env cwd path).reads.count file = 1) ∧
    ∀ dir, path ≠ "" → env.directory cwd = .ok dir → env.source.Wellformed (dir.resolve path) →
      (∃ file, env.source.Reaches (dir.resolve path) file ∧ TransGen env.source.Edge file file) →
      ∃ again stack, (load env cwd path).outcome = .error (.cycle again stack) := by
  constructor
  · intro again stack h
    have haccounted := load_accounted env cwd path
    obtain ⟨hstack, -⟩ := haccounted.cycle again stack h
    rcases load_eq_error_iff.1 h with ⟨-, he⟩ | ⟨-, cause, -, he⟩ | ⟨-, dir, hdir, hroot⟩
    · cases he
    · cases he
    · rcases Load.outcome_expandRoot_eq_error.1 hroot with he | ⟨members, hholds, htree⟩
      · exact absurd he (Source.contents_ne_cycle _ _ _)
      · have hcloses := Source.closes_of_tree (Source.follows_top _) hholds .root htree
        obtain ⟨hreaches, hcycle⟩ := hcloses.reaches
        exact ⟨dir, hdir, hcloses, hreaches, hcycle, fun file hfile =>
          List.count_eq_one_of_mem haccounted.nodup (hstack hfile)⟩
  · rintro dir hpath hdir hwellformed ⟨file, hfile, hcycle⟩
    rcases houtcome : (load env cwd path).outcome with e | loaded
    · rcases load_eq_error_iff.1 houtcome with ⟨he, -⟩ | ⟨-, cause, hcause, -⟩ | ⟨-, dir', hdir', h⟩
      · exact absurd he hpath
      · nomatch hdir.symm.trans hcause
      · obtain rfl : dir = dir' := Except.ok.inj (hdir.symm.trans hdir')
        rcases Load.outcome_expandRoot_eq_error.1 h with he | ⟨members, hholds, htree⟩
        · exact absurd he (hwellformed.contents_ne_error .refl e)
        · have hreaches : env.source.Reaches (dir.resolve path)
              (Scope.top (dir.resolve path)).file := .refl
          obtain ⟨again, stack, rfl⟩ := hwellformed.cycle_of_tree hreaches hholds .root htree
          exact ⟨again, stack, rfl⟩
    · -- a success would mean that no file is on a cycle
      obtain ⟨-, dir', hdir', members, tree, hholds, htree, -⟩ := load_eq_ok_iff.1 houtcome
      obtain rfl : dir = dir' := Except.ok.inj (hdir.symm.trans hdir')
      have hentered : env.source.Entered (.top (dir.resolve path)) :=
        ⟨members, hholds, _, Source.tree_object_of_eq_ok htree⟩
      exact absurd hcycle (hentered.faultless.acyclic file hfile)

set_option maxRecDepth 4000 in
/-- A file that includes itself is reported as a cycle, of that file alone. -/
theorem cycle_of_self_include :
    (load (MemoryFiles.ofDocuments [("/a", .object [
        ("#include", .scalar (.string "a"))])]).environment "/" "a").outcome =
      .error (.cycle (FilePath.root.resolve "a") [FilePath.root.resolve "a"]) := by
  let env := (MemoryFiles.ofDocuments [("/a", .object [
    ("#include", .scalar (.string "a"))])]).environment
  let members : Members Document := [("#include", .scalar (.string "a"))]
  let root := FilePath.root.resolve "a"
  obtain ⟨hreported, hconverse⟩ := load_reports_cycles env "/" "a"
  have hdir : env.directory "/" = .ok .root := by cbv
  have hholds : env.source.Holds root members := ⟨_, rfl, by cbv⟩
  -- the value of the include member is not live, so the object is the only live part
  have hlive {d : Document} (h : Document.Live (.object members) d) : d = .object members := by
    induction h with
    | root => rfl
    | block _ hd ih =>
      cases ih
      simp [members, Directive.publicKey, Members.get?_cons] at hd
    | member _ hmem hinclude _ ih =>
      cases ih
      simp only [members, List.mem_singleton, Prod.mk.injEq] at hmem
      exact absurd hmem.1 hinclude
    | item _ _ ih => cases ih
  have hedge {target : FilePath} (h : env.source.Edge root target) : target = root := by
    obtain ⟨contents, object, value, text, hcontents, hobject, hvalue, hnames, rfl⟩ := h
    obtain rfl := hholds.unique hcontents
    cases hlive hobject
    cases hvalue
    obtain ⟨-, heq | ⟨items, heq, -⟩⟩ := hnames <;> cases heq
    cbv
  have hreaches {file : FilePath} (h : env.source.Reaches root file) : file = root := by
    induction h with
    | refl => rfl
    | tail _ h ih =>
      subst ih
      exact hedge h
  have hwellformed : env.source.Wellformed root := by
    refine ⟨fun file hfile => ?_, fun file contents object d hfile hcontents hobject hd => ?_,
      fun file contents object hfile hcontents hobject => ?_⟩
    all_goals obtain rfl := hreaches hfile
    · exact ⟨members, hholds⟩
    · obtain rfl := hholds.unique hcontents
      cases hlive hobject
      simp [members, Directive.publicKey, Members.get?_cons] at hd
    · obtain rfl := hholds.unique hcontents
      cases hlive hobject
      exact List.Pairwise.nil
  have hself : env.source.Edge root root :=
    ⟨members, members, _, "a", hholds, .root, rfl, ⟨by decide, Or.inl rfl⟩, by cbv⟩
  obtain ⟨again, stack, hcycle⟩ :=
    hconverse .root (by decide) hdir hwellformed ⟨root, .refl, .single hself⟩
  obtain ⟨dir, hdir', ⟨hhead, hnodup, hedges, hmem⟩, -⟩ := hreported again stack hcycle
  obtain rfl : dir = .root := Except.ok.inj (hdir'.symm.trans hdir)
  rcases stack with _ | ⟨first, _ | ⟨second, rest⟩⟩
  · cases hhead
  · obtain rfl : first = root := Option.some.inj hhead
    obtain rfl := List.mem_singleton.1 hmem
    exact hcycle
  · -- a second file of the chain would be the first one again
    obtain rfl : first = root := Option.some.inj hhead
    obtain rfl := hedge (List.isChain_cons_cons.1 hedges).1
    exact absurd List.mem_cons_self (List.nodup_cons.1 hnodup).1

end ConfigTree
