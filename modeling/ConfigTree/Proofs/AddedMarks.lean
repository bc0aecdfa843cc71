import ConfigTree.MemoryFiles
import ConfigTree.Proofs.Rendering

/-!
# Adding marks

Marks decide only what is public. When marks are added to keys that have none, in any objects of
any files, a load still succeeds, reads the same files, and gives the same configuration. And more
of it is public: what is at or below a public path stays so (`ConfigTree.load_addsMarks`).
-/

namespace ConfigTree

namespace Directive

/-- **A mark is appended** to a key that is no directive and has no mark yet. -/
structure AppendsMark (key key' : String) : Prop where
  ne_empty : key ≠ ""
  ne_include : key ≠ includeKey
  ne_public : key ≠ publicKey
  unmarked : ¬∃ stem, IsMarkedAs key stem
  appended : ∃ suffix, IsMark suffix ∧ key' = key ++ suffix

theorem AppendsMark.isMarkedAs {key key' : String} (h : AppendsMark key key') :
    IsMarkedAs key' key :=
  ⟨h.ne_empty, h.appended⟩

end Directive

/-- **Marks are added** to some members of the objects in a document. What an include member holds
is kept. -/
inductive Document.AddsMarks : Document → Document → Prop
  | scalar (s : Scalar) : AddsMarks (.scalar s) (.scalar s)
  | array {items items' : List Document} : List.Forall₂ AddsMarks items items' →
      AddsMarks (.array items) (.array items')
  | object {members members' : Members Document} :
      List.Forall₂ (RespelledMember
        (fun key key' => key' = key ∨ Directive.AppendsMark key key') AddsMarks) members members' →
      AddsMarks (.object members) (.object members')

/-- A document is one of those that it becomes when marks are added to it: none need be. -/
theorem Document.AddsMarks.refl (d : Document) : AddsMarks d d := by
  induction d using Document.induction with
  | scalar s => exact .scalar s
  | array items ih => exact .array (List.forall₂_same.2 ih)
  | object members ih =>
    exact .object (List.forall₂_same.2 fun member hmember => .refl (Or.inl rfl) (ih member hmember))

/-- A key with an appended mark has the same name, and is no directive. -/
theorem keyRespelling_appendsMark :
    KeyRespelling (· ≤ ·) fun key key' => key' = key ∨ Directive.AppendsMark key key' where
  name_eq h := by
    rcases h with rfl | h
    · rfl
    · rw [Directive.isName_iff.1 (Or.inl h.isMarkedAs),
        Directive.isName_iff.1 (Or.inr ⟨h.unmarked, rfl⟩)]
  mark h := by
    rcases h with rfl | h
    · exact le_rfl
    · rw [Directive.isMarked_eq_true_iff.2 ⟨_, h.isMarkedAs⟩]
      exact le_top
  include_of_eq h heq := by
    rcases h with rfl | h
    · exact heq
    · exact absurd (Directive.isMarked_eq_true_iff.2 ⟨_, heq ▸ h.isMarkedAs⟩) (by decide)
  public_iff h := by
    rcases h with rfl | h
    · rfl
    · refine iff_of_false (fun heq => ?_) h.ne_public
      exact absurd (Directive.isMarked_eq_true_iff.2 ⟨_, heq ▸ h.isMarkedAs⟩) (by decide)

/-- **Adding marks is a respelling**, under which marks only grow. -/
theorem respelling_addsMarks : Respelling (· ≤ ·)
    (fun key key' => key' = key ∨ Directive.AppendsMark key key') Document.AddsMarks where
  closed := Marked.orClosed_le
  keys := keyRespelling_appendsMark
  scalar h := by
    cases h
    rfl
  array h := by
    cases h with
    | array hitems => exact ⟨_, rfl, hitems⟩
  object h := by
    cases h with
    | object hmembers => exact ⟨_, rfl, Or.inl hmembers⟩

/-- **Marks never change a configuration and only add to what is public.** When marks are added in
the files of a load, it gives the same configuration from the same files, and whatever is at or
below a public path stays so, with the same value in the public subset. -/
theorem load_addsMarks {env : Environment} {other : Source} {cwd path : String} {loaded : Loaded}
    (h : (load env cwd path).outcome = .ok loaded)
    (hfiles : ∀ file ∈ loaded.files, ∃ d d', env.source.document file = .ok d ∧
      other.document file = .ok d' ∧ Document.AddsMarks d d') :
    ∃ loaded', (load { env with source := other } cwd path).outcome = .ok loaded' ∧
      loaded'.config = loaded.config ∧ loaded'.files = loaded.files ∧
      (load { env with source := other } cwd path).reads = (load env cwd path).reads ∧
      ∀ q, (∃ p ∈ loaded.publicPaths, p <+: q) →
        (∃ p ∈ loaded'.publicPaths, p <+: q) ∧
          loaded'.publicSubset.find? q = loaded.publicSubset.find? q := by
  obtain ⟨loaded', h', hagrees, hreads⟩ := respelling_addsMarks.load h hfiles
  have hconfig : loaded'.config = loaded.config := congrArg Document.object hagrees.members_eq
  obtain ⟨t, t', hplain, hplain', ht, ht', hagree, hpaths, hpaths'⟩ := hagrees.trees
  refine ⟨loaded', h', hconfig, hagrees.files_eq, hreads, fun q hq => ?_⟩
  rw [Loaded.publicSubset, Loaded.publicSubset, hconfig, hpaths, hpaths', ← hplain]
  rw [hpaths] at hq
  have hcovered : ValuePath.Covered t'.publicPaths q :=
    hagree.covered (hplain.trans hplain'.symm) ht ht' hq
  refine ⟨hcovered, ?_⟩
  rw [Marked.find?_subset_of_covered ht hq, hplain, ← hplain',
    Marked.find?_subset_of_covered ht' hcovered]

set_option maxRecDepth 4000 in
/-- With marks added above and beside a public member, it is still public, and both public subsets
hold its value. -/
theorem load_of_added_marks :
    ∃ loaded loaded' : Loaded,
      (load (MemoryFiles.ofDocuments [("/a", .object [("list", .array [.object [
        ("k#public", .scalar .null), ("l", .scalar (.bool true))]])])]).environment "/"
          "a").outcome = .ok loaded ∧
      (load (MemoryFiles.ofDocuments [("/a", .object [("list#PUBLIC", .array [.object [
        ("k#public", .scalar .null), ("l#Public", .scalar (.bool true))]])])]).environment "/"
          "a").outcome = .ok loaded' ∧
      loaded'.config = loaded.config ∧
      (∃ p ∈ loaded'.publicPaths, p <+: [.key "list", .index 0, .key "k"]) ∧
      loaded.publicSubset.find? [.key "list", .index 0, .key "k"] = some (.scalar .null) ∧
      loaded'.publicSubset.find? [.key "list", .index 0, .key "k"] = some (.scalar .null) := by
  let d : Document := .object [("list", .array [.object [
    ("k#public", .scalar .null), ("l", .scalar (.bool true))]])]
  let d' : Document := .object [("list#PUBLIC", .array [.object [
    ("k#public", .scalar .null), ("l#Public", .scalar (.bool true))]])]
  let files : MemoryFiles := .ofDocuments [("/a", d)]
  let files' : MemoryFiles := .ofDocuments [("/a", d')]
  let root := FilePath.root.resolve "a"
  let loaded : Loaded := ⟨[("list", .array [.object [
    ("k", .scalar .null), ("l", .scalar (.bool true))]])],
    [[.key "list", .index 0, .key "k"]], [root]⟩
  have hload : (load files.environment "/" "a").outcome = .ok loaded := by cbv
  have hd : files.source.document root = .ok d :=
    Source.document_eq_ok_iff.2 ⟨_, rfl, by cbv⟩
  have hd' : files'.source.document root = .ok d' :=
    Source.document_eq_ok_iff.2 ⟨_, rfl, by cbv⟩
  have hlist : Directive.AppendsMark "list" "list#PUBLIC" :=
    ⟨by decide, by decide, by decide, by decide, "#PUBLIC", by decide, by decide⟩
  have hmember : Directive.AppendsMark "l" "l#Public" :=
    ⟨by decide, by decide, by decide, by decide, "#Public", by decide, by decide⟩
  have hadds : Document.AddsMarks d d' :=
    .object (.cons (.other (by decide) (Or.inr hlist) (.array (.cons (.object
      (.cons (.refl (Or.inl rfl) (.refl _))
        (.cons (.other (by decide) (Or.inr hmember) (.refl _)) .nil))) .nil))) .nil)
  obtain ⟨loaded', hload', hconfig, -, -, hpublic⟩ := load_addsMarks hload fun file hfile => by
    obtain rfl := List.mem_singleton.1 hfile
    exact ⟨d, d', hd, hd', hadds⟩
  obtain ⟨hcovered, hfind⟩ := hpublic [.key "list", .index 0, .key "k"]
    ⟨_, List.mem_singleton_self _, List.prefix_refl _⟩
  have hvalue : loaded.publicSubset.find? [.key "list", .index 0, .key "k"] =
      some (.scalar .null) := by cbv
  exact ⟨loaded, loaded', hload, hload', hconfig, hcovered, hvalue, hfind.trans hvalue⟩

end ConfigTree
