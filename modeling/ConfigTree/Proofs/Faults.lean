import ConfigTree.MemoryFiles
import ConfigTree.Proofs.Outcome
import Mathlib

/-!
# Loads without faults

When a load succeeds, as a property of what files hold. A part of a document is **live** when it
is not inside the value of an include member (`ConfigTree.Document.Live`), and one file leads to
another when a live object of it includes it (`ConfigTree.Source.Edge`). A root file is
**faultless** when every file that it leads to can be read and holds an object, no file that it
leads to leads back to itself, and in the live objects of these files every public block is an
object and no two members get the same name (`ConfigTree.Source.Faultless`).

A load succeeds exactly when its root file is faultless
(`ConfigTree.load_succeeds_iff_faultless`). The walk of a load only knows the chain of files
that led to the current one. In one direction, a success enters each live part of each file
with a chain that grows along edges (`ConfigTree.Source.Expands.edge`), so that an edge back
would be found on it. In the other direction every file on the chain leads to the current one,
so that a file found on it would be on a cycle (`ConfigTree.Source.Faultless.expands`).
-/

namespace ConfigTree

open Relation

/-- **Live parts** of a document: those that are not inside the value of an include member. -/
inductive Document.Live (root : Document) : Document → Prop
  /-- The document itself. -/
  | root : Live root root
  /-- The public block of a live object. -/
  | block {members : Members Document} {d : Document} : Live root (.object members) →
      members.get? Directive.publicKey = some d → Live root d
  /-- The value of another member of a live object. -/
  | member {members : Members Document} {key : String} {d : Document} :
      Live root (.object members) → (key, d) ∈ members → key ≠ Directive.includeKey →
      key ≠ Directive.publicKey → Live root d
  /-- An item of a live array. -/
  | item {items : List Document} {d : Document} : Live root (.array items) → d ∈ items →
      Live root d

namespace Source

open Document

variable {source : Source} {scope : Scope} {root file : FilePath}

/-- **One file leads to another**: a live object of it has an include member that names it. -/
def Edge (source : Source) (file target : FilePath) : Prop :=
  ∃ contents members value text, source.Holds file contents ∧
    Live (.object contents) (.object members) ∧
    Members.get? members Directive.includeKey = some value ∧ Directive.Names value text ∧
    file.parent.resolve text = target

/-- This file is the root file, or edges lead from there to it. -/
def Reaches (source : Source) (root file : FilePath) : Prop := ReflTransGen source.Edge root file

/-- **Nothing is at fault** in a root file and the files that it leads to. -/
structure Faultless (source : Source) (root : FilePath) : Prop where
  /-- Every file can be read, parses, and holds an object. -/
  readable : ∀ file, source.Reaches root file → ∃ contents, source.Holds file contents
  /-- No file leads to itself. -/
  acyclic : ∀ file, source.Reaches root file → ¬TransGen source.Edge file file
  /-- Every public block is an object. -/
  blocks : ∀ file contents members d, source.Reaches root file → source.Holds file contents →
    Live (.object contents) (.object members) →
    Members.get? members Directive.publicKey = some d → ∃ block, d = .object block
  /-- No two members of an object get the same name. -/
  names : ∀ file contents members, source.Reaches root file → source.Holds file contents →
    Live (.object contents) (.object members) →
    (Directive.ordinary members).Pairwise fun first second =>
      ¬∃ name, Directive.IsName first.1 name ∧ Directive.IsName second.1 name

/-- A file leads to whatever a live object of it includes. -/
theorem edge_of_mem_texts {contents members : Members Document} {text : String}
    (hholds : source.Holds scope.file contents) (hlive : Live (.object contents) (.object members))
    (htext : text ∈ Directive.texts members) : source.Edge scope.file (scope.target text) := by
  obtain ⟨value, hvalue, hnames⟩ := Directive.mem_texts.1 htext
  exact ⟨contents, members, value, text, hholds, hlive, hvalue, hnames, rfl⟩

/-! ### What a success implies -/

/-- The names of keys are distinct when no two of them are keys of one name. -/
theorem nodup_names_iff {members : Members Document} :
    (members.keys.map Directive.name).Nodup ↔
      members.Pairwise fun first second =>
        ¬∃ name, Directive.IsName first.1 name ∧ Directive.IsName second.1 name := by
  rw [Members.keys, List.map_map, List.Nodup, List.pairwise_map]
  refine List.Pairwise.iff fun first second => not_congr ⟨fun h => ?_, ?_⟩
  · exact ⟨_, Directive.isName_iff.2 h, Directive.isName_iff.2 rfl⟩
  · rintro ⟨name, hfirst, hsecond⟩
    exact (Directive.isName_iff.1 hfirst).trans (Directive.isName_iff.1 hsecond).symm

/-- **A success enters every live part** of a document, with the same chain of files. -/
theorem Expands.live {d part : Document} (h : source.Expands scope d) (hlive : Live d part) :
    ∃ inner : Scope, inner.file = scope.file ∧ inner.chain = scope.chain ∧
      source.Expands inner part := by
  induction hlive with
  | root => exact ⟨scope, rfl, rfl, h⟩
  | block _ hd ih =>
    obtain ⟨inner, hfile, hchain, hobject⟩ := ih
    obtain ⟨-, hblock, -⟩ := expands_object_iff.1 hobject
    obtain ⟨block, -, hpart⟩ := hblock _ hd
    exact ⟨inner.inBlock, hfile, hchain, hpart⟩
  | @member _ key d _ hmem hinclude hpublic ih =>
    obtain ⟨inner, hfile, hchain, hobject⟩ := ih
    obtain ⟨-, -, -, hown⟩ := expands_object_iff.1 hobject
    exact ⟨inner.member (Directive.name key), hfile, hchain,
      hown (key, d) (Directive.mem_ordinary.2 ⟨hmem, hinclude, hpublic⟩)⟩
  | item _ hmem ih =>
    obtain ⟨inner, hfile, hchain, harray⟩ := ih
    obtain ⟨i, hi⟩ := List.mem_iff_getElem?.1 hmem
    exact ⟨inner.item i, hfile, hchain, expands_array_iff.1 harray i _ hi⟩

/-- The file of the scope holds an object, which expands there. -/
def Entered (source : Source) (scope : Scope) : Prop :=
  ∃ contents, source.Holds scope.file contents ∧ source.Expands scope (.object contents)

/-- **A success enters every file** that its file leads to, none of which is on the chain. -/
theorem Entered.edge (h : source.Entered scope) {target : FilePath}
    (hedge : source.Edge scope.file target) :
    ∃ inner : Scope, inner.file = target ∧ inner.above = scope.chain ∧ target ∉ scope.chain ∧
      source.Entered inner := by
  obtain ⟨contents, hholds, hexpands⟩ := h
  obtain ⟨contents', members, value, text, hholds', hlive, hvalue, hnames, rfl⟩ := hedge
  obtain rfl := hholds.unique hholds'
  obtain ⟨inner, hfile, hchain, hobject⟩ := hexpands.live hlive
  obtain ⟨hincluded, -⟩ := expands_object_iff.1 hobject
  obtain ⟨htarget, next, hnext, hentered⟩ := hincluded text
    (Directive.mem_texts.2 ⟨value, hvalue, hnames⟩)
  rw [Scope.target, hfile] at htarget hnext hentered
  rw [hchain] at htarget
  exact ⟨inner.enter (scope.file.parent.resolve text), rfl, hchain, htarget, next, hnext, hentered⟩

theorem Entered.reaches (h : source.Entered (.top root)) (hreaches : source.Reaches root file) :
    ∃ inner : Scope, inner.file = file ∧ source.Entered inner := by
  induction hreaches with
  | refl => exact ⟨.top root, rfl, h⟩
  | tail _ hedge ih =>
    obtain ⟨scope, rfl, hscope⟩ := ih
    obtain ⟨inner, hfile, -, -, hinner⟩ := hscope.edge hedge
    exact ⟨inner, hfile, hinner⟩

/-- Along edges the chain only grows, and the current file is new on it. -/
theorem Entered.not_mem_above (h : source.Entered scope)
    (hedges : TransGen source.Edge scope.file file) :
    ∃ inner : Scope, inner.file = file ∧ scope.chain ⊆ inner.above ∧ file ∉ inner.above ∧
      source.Entered inner := by
  induction hedges with
  | single hedge =>
    obtain ⟨inner, hfile, habove, hnew, hinner⟩ := h.edge hedge
    exact ⟨inner, hfile, by rw [habove]; exact List.Subset.refl _, by rwa [habove], hinner⟩
  | tail _ hedge ih =>
    obtain ⟨scope', rfl, hsub, -, hscope'⟩ := ih
    obtain ⟨inner, hfile, habove, hnew, hinner⟩ := hscope'.edge hedge
    refine ⟨inner, hfile, ?_, by rwa [habove], hinner⟩
    rw [habove]
    exact fun f hf => List.mem_append_left _ (hsub hf)

theorem Entered.faultless (h : source.Entered (.top root)) : source.Faultless root where
  readable file hfile := by
    obtain ⟨scope, rfl, contents, hholds, -⟩ := h.reaches hfile
    exact ⟨contents, hholds⟩
  acyclic file hfile hcycle := by
    obtain ⟨scope, rfl, hscope⟩ := h.reaches hfile
    -- once around the cycle, the file is entered under a chain that it is on
    obtain ⟨inner, -, hsub, hnew, -⟩ := hscope.not_mem_above hcycle
    exact hnew (hsub (by simp [Scope.chain]))
  blocks file contents members d hfile hholds hlive hd := by
    obtain ⟨scope, rfl, contents', hholds', hexpands⟩ := h.reaches hfile
    obtain rfl := hholds.unique hholds'
    obtain ⟨inner, -, -, hobject⟩ := hexpands.live hlive
    obtain ⟨-, hblock, -⟩ := expands_object_iff.1 hobject
    obtain ⟨block, hd, -⟩ := hblock d hd
    exact ⟨block, hd⟩
  names file contents members hfile hholds hlive := by
    obtain ⟨scope, rfl, contents', hholds', hexpands⟩ := h.reaches hfile
    obtain rfl := hholds.unique hholds'
    obtain ⟨inner, -, -, hobject⟩ := hexpands.live hlive
    obtain ⟨-, -, hnames, -⟩ := expands_object_iff.1 hobject
    exact nodup_names_iff.1 hnames

/-! ### What implies a success -/

/-- **In a faultless root file everything expands**, as long as the files on the chain lead to
the current one. -/
theorem Faultless.expands (h : source.Faultless root) {d : Document} {contents : Members Document}
    (hreaches : source.Reaches root scope.file) (hholds : source.Holds scope.file contents)
    (hlive : Live (.object contents) d) (hchain : ∀ f ∈ scope.chain, source.Reaches f scope.file) :
    source.Expands scope d := by
  induction scope, d using expansion_induction source generalizing contents with
  | scalar scope s => exact expands_scalar s
  | array scope items ih =>
    refine expands_array_iff.2 fun i item hitem => ?_
    exact ih i item hitem hreaches hholds (hlive.item (List.mem_of_getElem? hitem)) hchain
  | object scope members hincluded hblock hown =>
    refine expands_object_iff.2 ⟨fun text htext => ?_, fun d hd => ?_, ?_, ?_⟩
    · have hedge := edge_of_mem_texts hholds hlive htext
      -- from the chain back to the target there would be a cycle
      have hnew : scope.target text ∉ scope.chain := fun hmem =>
        h.acyclic _ hreaches (.head' hedge (hchain _ hmem))
      have hnext : source.Reaches root (scope.target text) := hreaches.tail hedge
      obtain ⟨next, hholds'⟩ := h.readable _ hnext
      refine ⟨hnew, next, hholds', hincluded text next hnew hholds' hnext hholds' .root ?_⟩
      intro f hf
      rcases List.mem_append.1 hf with hf | hf
      · exact (hchain f hf).tail hedge
      · rw [List.mem_singleton.1 hf]
        exact .refl
    · obtain ⟨block, rfl⟩ := h.blocks _ _ _ d hreaches hholds hlive hd
      exact ⟨block, rfl, hblock block hd hreaches hholds (hlive.block hd) hchain⟩
    · exact nodup_names_iff.2 (h.names _ _ _ hreaches hholds hlive)
    · intro member hmember
      obtain ⟨hmem, hinclude, hpublic⟩ := Directive.mem_ordinary.1 hmember
      exact hown member hmember hreaches hholds (hlive.member hmem hinclude hpublic) hchain

theorem entered_iff_faultless : source.Entered (.top root) ↔ source.Faultless root := by
  refine ⟨Entered.faultless, fun h => ?_⟩
  obtain ⟨contents, hholds⟩ := h.readable root .refl
  refine ⟨contents, hholds, h.expands .refl hholds .root fun f hf => ?_⟩
  rw [List.mem_singleton.1 hf]
  exact .refl

end Source

/-! ### Loads -/

/-- Every text but the empty one names a directory, if it is absolute or the process has a
working directory. -/
theorem Environment.exists_directory {env : Environment} {cwd : String} (hcwd : cwd ≠ "")
    (hhere : FilePath.isAbsolute cwd = true ∨ ∃ here, env.workingDirectory = .ok here) :
    ∃ dir, env.directory cwd = .ok dir := by
  rw [directory, if_neg hcwd]
  by_cases habsolute : FilePath.isAbsolute cwd = true
  · exact ⟨_, if_pos habsolute⟩
  · obtain ⟨here, hhere⟩ := hhere.resolve_left habsolute
    rw [if_neg habsolute, hhere]
    exact ⟨_, rfl⟩

/-- **A load succeeds exactly when no fault is reachable** from its root file. -/
theorem load_succeeds_iff_faultless {env : Environment} {cwd path : String} (hpath : path ≠ "")
    (hcwd : cwd ≠ "")
    (hhere : FilePath.isAbsolute cwd = true ∨ ∃ here, env.workingDirectory = .ok here) :
    ∃ dir, env.directory cwd = .ok dir ∧
      ((∃ loaded, (load env cwd path).outcome = .ok loaded) ↔
        env.source.Faultless (dir.resolve path)) := by
  obtain ⟨dir, hdir⟩ := env.exists_directory hcwd hhere
  refine ⟨dir, hdir, ?_⟩
  rw [← Source.entered_iff_faultless]
  constructor
  · rintro ⟨loaded, hload⟩
    obtain ⟨-, dir', hdir', members, tree, hholds, htree, -⟩ := load_eq_ok_iff.1 hload
    obtain rfl : dir = dir' := Except.ok.inj (hdir.symm.trans hdir')
    exact ⟨members, hholds, _, Source.tree_object_of_eq_ok htree⟩
  · rintro ⟨members, hholds, node, hnode⟩
    obtain ⟨tree, -, htree⟩ := Source.tree_object_eq_ok_iff.1 hnode
    exact ⟨_, load_eq_ok_iff.2 ⟨hpath, dir, hdir, members, tree, hholds, htree, rfl⟩⟩

set_option maxRecDepth 4000 in
/-- A file that includes itself is not loaded. -/
theorem not_load_of_self_include :
    ¬∃ loaded, (load (MemoryFiles.ofDocuments [("/a", .object [
      ("#include", .scalar (.string "a"))])]).environment "/" "a").outcome = .ok loaded := by
  let env := (MemoryFiles.ofDocuments [("/a", .object [
    ("#include", .scalar (.string "a"))])]).environment
  obtain ⟨dir, hdir, hiff⟩ : ∃ dir, env.directory "/" = .ok dir ∧
      ((∃ loaded, (load env "/" "a").outcome = .ok loaded) ↔
        env.source.Faultless (dir.resolve "a")) :=
    load_succeeds_iff_faultless (by decide) (by decide) (Or.inl (by decide))
  have hroot : env.directory "/" = .ok .root := by cbv
  obtain rfl : dir = .root := Except.ok.inj (hdir.symm.trans hroot)
  intro hload
  have hholds : env.source.Holds (FilePath.root.resolve "a")
      [("#include", .scalar (.string "a"))] := by
    refine ⟨_, rfl, ?_⟩
    cbv
  have hedge : env.source.Edge (FilePath.root.resolve "a") (FilePath.root.resolve "a") :=
    ⟨_, _, _, "a", hholds, .root, rfl, ⟨by decide, Or.inl rfl⟩, by cbv⟩
  exact (hiff.1 hload).acyclic _ .refl (.single hedge)

end ConfigTree
