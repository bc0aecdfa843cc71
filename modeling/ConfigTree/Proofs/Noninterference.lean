import ConfigTree.MemoryFiles
import ConfigTree.Proofs.Parallel
import Mathlib

/-!
# Private scalars do not show

Which members are public, and what is shown of them, does not depend on any scalar that is not
public itself. Of two sources whose files differ only in scalars
(`ConfigTree.Source.DiffersInScalars`), loads fail alike or succeed alike, read the same files
and find the same public paths; and once their configurations agree at these paths, their public
subsets are equal (`ConfigTree.load_noninterference`). An observer of the public subset thus
learns nothing about the other scalars, not even whether one of them is `null`.
-/

namespace ConfigTree

/-- **Sources that differ only in scalars**: under every path their first answers are the same, or
texts of documents that differ only in scalars, and in none in the value of an include member. -/
def Source.DiffersInScalars (source other : Source) : Prop :=
  ∀ path, source.answer path 0 = other.answer path 0 ∨
    ∃ text text' d d', source.answer path 0 = .ok text ∧ other.answer path 0 = .ok text' ∧
      Document.parse text = .ok d ∧ Document.parse text' = .ok d' ∧
      Document.Alike [Directive.includeKey] d d'

theorem Source.DiffersInScalars.parallel {source other : Source}
    (h : source.DiffersInScalars other) : source.Parallel (fun _ => .null) other := by
  intro path
  rcases h path with hanswer | ⟨text, text', d, d', htext, htext', hd, hd', halike⟩
  · have hdocument : other.document path = source.document path := by
      rw [Source.document, Source.document, hanswer]
    rw [hdocument]
    rcases source.document path with e | d
    · exact .error e
    · exact .ok rfl
  · rw [Source.document_eq_ok_iff.2 ⟨text, htext, hd⟩,
      Source.document_eq_ok_iff.2 ⟨text', htext', hd'⟩]
    exact .ok halike

/-- What is copied from a document depends only on what it holds at the places that are
copied. -/
theorem Document.subset_congr {d d' : Document} {paths : List ValuePath}
    (h : ∀ p ∈ paths, d.find? p = d'.find? p) : d.subset paths = d'.subset paths :=
  List.foldl_ext _ _ _ fun slot p hp => by rw [h p hp]

/-- **Private scalars do not interfere** with what is public. Loads from sources that differ only
in scalars read the same and report the same events. They fail with the same error, or their
configurations differ only in scalars, with the same files and the same public paths; and if the
configurations agree at every public path, then their public subsets are equal. -/
theorem load_noninterference {env : Environment} {other : Source}
    (h : env.source.DiffersInScalars other) (cwd path : String) :
    (load env cwd path).reads = (load { env with source := other } cwd path).reads ∧
    (load env cwd path).log = (load { env with source := other } cwd path).log ∧
    ((∃ e, (load env cwd path).outcome = .error e ∧
        (load { env with source := other } cwd path).outcome = .error e) ∨
      ∃ loaded loaded', (load env cwd path).outcome = .ok loaded ∧
        (load { env with source := other } cwd path).outcome = .ok loaded' ∧
        loaded.files = loaded'.files ∧ loaded.publicPaths = loaded'.publicPaths ∧
        Document.Alike [] loaded.config loaded'.config ∧
        ((∀ p ∈ loaded.publicPaths, loaded.config.find? p = loaded'.config.find? p) →
          loaded.publicSubset = loaded'.publicSubset)) := by
  have hsame := load_parallel h.parallel cwd path
  refine ⟨hsame.reads, hsame.log, ?_⟩
  have houtcome := hsame.outcome
  generalize (load env cwd path).outcome = outcome at houtcome ⊢
  generalize (load { env with source := other } cwd path).outcome = outcome' at houtcome ⊢
  cases houtcome with
  | error e => exact Or.inl ⟨e, rfl, rfl⟩
  | @ok loaded loaded' hloaded =>
    refine Or.inr ⟨loaded, loaded', rfl, rfl, hloaded.files, hloaded.publicPaths, ?_,
      fun hagree => ?_⟩
    · rw [Document.Alike, Loaded.config, Loaded.config, Document.mapScalars, Document.mapScalars,
        hloaded.members]
    · rw [Loaded.publicSubset, Loaded.publicSubset, ← hloaded.publicPaths]
      exact Document.subset_congr hagree

set_option maxRecDepth 4000 in
/-- A secret that changes from a text to `null` does not show in what is public beside it. -/
theorem publicSubset_of_changed_secret :
    ∃ loaded loaded' : Loaded,
      (load (MemoryFiles.ofDocuments [("/a", .object [("k#public", .scalar (.bool true)),
        ("secret", .scalar (.string "s"))])]).environment "/" "a").outcome = .ok loaded ∧
      (load (MemoryFiles.ofDocuments [("/a", .object [("k#public", .scalar (.bool true)),
        ("secret", .scalar .null)])]).environment "/" "a").outcome = .ok loaded' ∧
      loaded.config ≠ loaded'.config ∧ loaded.publicSubset = loaded'.publicSubset ∧
      loaded.publicSubset = .object [("k", .scalar (.bool true))] := by
  let d (s : Scalar) : Document :=
    .object [("k#public", .scalar (.bool true)), ("secret", .scalar s)]
  let files (s : Scalar) : MemoryFiles := .ofDocuments [("/a", d s)]
  let loaded (s : Scalar) : Loaded :=
    ⟨[("k", .scalar (.bool true)), ("secret", .scalar s)], [[.key "k"]],
      [FilePath.root.resolve "a"]⟩
  have hload : (load (files (.string "s")).environment "/" "a").outcome =
      .ok (loaded (.string "s")) := by cbv
  have hload' : (load (files .null).environment "/" "a").outcome = .ok (loaded .null) := by cbv
  have hget (s : Scalar) (path : FilePath) : (files s).get? path.text =
      if "/a" = path.text then some ⟨.texts [(d s).compact], 0⟩ else none := rfl
  have hdiffers : (files (.string "s")).environment.source.DiffersInScalars
      (files .null).source := by
    intro path
    by_cases hpath : "/a" = path.text
    · have hanswer (s : Scalar) : (files s).source.answer path 0 = .ok (d s).compact := by
        rw [MemoryFiles.answer_source, hget, if_pos hpath]
        rfl
      exact Or.inr ⟨_, _, d (.string "s"), d .null, hanswer _, hanswer _, by cbv, by cbv, by decide⟩
    · refine Or.inl ?_
      rw [MemoryFiles.environment, MemoryFiles.answer_source, MemoryFiles.answer_source, hget, hget,
        if_neg hpath, if_neg hpath]
  obtain ⟨-, -, ⟨e, herror, -⟩ | ⟨loaded₁, loaded₂, h₁, h₂, -, -, -, hpublic⟩⟩ :=
    load_noninterference hdiffers "/" "a"
  · rw [hload] at herror
    cases herror
  · obtain rfl := Except.ok.inj (hload.symm.trans h₁)
    obtain rfl := Except.ok.inj (hload'.symm.trans h₂)
    exact ⟨_, _, h₁, h₂, by decide, hpublic (by decide), by cbv⟩

end ConfigTree
