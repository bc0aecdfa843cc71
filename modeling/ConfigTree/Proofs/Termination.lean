import ConfigTree.Proofs.Calls
import ConfigTree.Proofs.Reads
import ConfigTree.Proofs.Spelling

/-!
# Every load ends

The recursion of an expansion has no bound of its own: a file may be entered many times, and the
document in it may be larger than the one that includes it. It ends all the same. Along the calls
that calls make, the chain of files is one without repetition, and all of its files were read, but
perhaps the one that is just entered (`ConfigTree.Call.Stacked`). Each call descends
(`ConfigTree.Call.Descends`): to a part of its document, with the same chain, or to a file that is
not on the chain, from there to the object in it. So either the document gets smaller, or fewer
files are left; and as a source has finitely many files, no document in them is larger than all of
them together (`ConfigTree.Call.weight`).

It follows that calls are nested only finitely deep, and that the recursion, unrolled far enough,
gives the report of a load whatever it calls at the bottom (`ConfigTree.load_ends`).
-/

namespace ConfigTree

open Relation

/-! ### Parts of a document -/

namespace Document

/-- The items of an array, and the values of the members of an object. -/
def parts : Document → List Document
  | .scalar _ => []
  | .array items => items
  | .object members => members.map (·.2)

theorem size_lt_of_mem_parts {d part : Document} (h : part ∈ d.parts) : part.size < d.size := by
  cases d with
  | scalar s => nomatch h
  | array items =>
    have : part.size ≤ sizeItems items := size_le_sizeItems h
    rw [size]
    omega
  | object members =>
    obtain ⟨member, hmember, rfl⟩ := List.mem_map.1 h
    have := size_le_sizeMembers_of_mem hmember
    rw [size]
    omega

end Document

/-! ### Progress that goes on -/

namespace Progress

variable {source : Source} {progress next later : Progress source}

/-- **Progress that goes on** from coherent progress is coherent, and no file is lost. -/
structure Extends (progress later : Progress source) : Prop where
  coherent : later.Coherent
  files : progress.files ⊆ later.files

theorem Extends.refl (h : progress.Coherent) : progress.Extends progress :=
  ⟨h, List.Subset.refl _⟩

theorem Extends.trans (h : progress.Extends next) (h' : next.Extends later) :
    progress.Extends later :=
  ⟨h'.coherent, List.Subset.trans h.files h'.files⟩

/-- A file that was read can be read. -/
theorem readable_of_mem_files {path : FilePath} (h : path ∈ progress.files) :
    source.Readable path := by
  obtain ⟨file, -, rfl⟩ := List.mem_map.1 h
  exact file.readable

end Progress

namespace Load

variable {source : Source} {α : Type} {progress later : Progress source}

theorem Steady.extends {load : Load source α} (h : Steady load) (hcoherent : progress.Coherent)
    {a : α} (hload : load progress = .ok a later) : progress.Extends later := by
  have hafter : after load progress = later := by rw [after, hload]
  have hlater : later.Coherent :=
    hafter ▸ h.coherent progress hcoherent a (by rw [result, hload])
  refine ⟨hlater, ?_⟩
  rw [← hcoherent.reads_eq, ← hlater.reads_eq, ← hafter]
  exact h.reads_subset hcoherent

theorem steady_perform (scope : Scope) (subject : Subject) :
    Steady (perform scope subject : Load source _) := by
  cases subject with
  | file => exact (steady_fetchMembers _).bind fun _ => steady_expand _ _
  | document d => exact steady_expand scope d

/-- What is fetched was read, and it is what the file holds. -/
theorem holds_of_fetchMembers {path : FilePath} {file : source.Fetched path (Members Document)}
    (hcoherent : progress.Coherent) (h : fetchMembers path progress = .ok file later) :
    source.Holds path file.value ∧ path ∈ later.files := by
  have hresult : result (fetchMembers path) progress = .ok file := by rw [result, h]
  have hreads := reads_fetchMembers hcoherent path
  rw [after, h] at hreads
  rw [(steady_fetchMembers path).result_eq progress hcoherent] at hresult
  refine ⟨outcome_fetchMembers_eq_ok.1 hresult, ?_⟩
  rw [← ((steady_fetchMembers path).extends hcoherent h).coherent.reads_eq, hreads]
  exact Progress.mem_visit.2 (Or.inr rfl)

end Load

namespace Call

open Load

variable {source : Source} {scope : Scope} {progress : Progress source} {call inner : Call source}

/-! ### Calls descend -/

/-- **A call descends**: from a file to the object that it holds, from a document to a part of it in
the same chain of files, or to a file that is not on the chain and joins it. -/
inductive Descends : Call source → Call source → Prop
  | contents {scope : Scope} {members : Members Document} {progress later : Progress source} :
      source.Holds scope.file members → scope.file ∈ later.files →
      Descends ⟨scope, .file, progress⟩ ⟨scope, .document (.object members), later⟩
  | part {scope below : Scope} {d part : Document} {progress later : Progress source} :
      part ∈ d.parts → below.file = scope.file → below.above = scope.above →
      Descends ⟨scope, .document d, progress⟩ ⟨below, .document part, later⟩
  | file {scope : Scope} {d : Document} {path : FilePath} {progress later : Progress source} :
      path ∉ scope.chain →
      Descends ⟨scope, .document d, progress⟩ ⟨scope.enter path, .file, later⟩

theorem ForItem.descends {i : ℕ} {items : List Document}
    (h : ForItem scope i items progress inner) (hcoherent : progress.Coherent) :
    ∃ j, ∃ item ∈ items, ∃ later, inner = ⟨scope.item j, .document item, later⟩ ∧
      progress.Extends later := by
  induction h with
  | here => exact ⟨_, _, List.mem_cons_self, _, rfl, .refl hcoherent⟩
  | later hnode _ ih =>
    have hnext := (steady_perform _ _).extends hcoherent hnode
    obtain ⟨j, item, hitem, later, rfl, hlater⟩ := ih hnext.coherent
    exact ⟨j, item, List.mem_cons_of_mem _ hitem, later, rfl, hnext.trans hlater⟩

theorem ForMember.descends {taken : List String} {members : Members Document}
    (h : ForMember scope taken members progress inner) (hcoherent : progress.Coherent) :
    ∃ name, ∃ member ∈ members, ∃ later,
      inner = ⟨scope.member name, .document member.2, later⟩ ∧ progress.Extends later := by
  induction h with
  | here => exact ⟨_, _, List.mem_cons_self, _, rfl, .refl hcoherent⟩
  | later _ hnode _ ih =>
    have hnext := (steady_perform _ _).extends hcoherent hnode
    obtain ⟨name, member, hmember, later, rfl, hlater⟩ := ih hnext.coherent
    exact ⟨name, member, List.mem_cons_of_mem _ hmember, later, rfl, hnext.trans hlater⟩

theorem ForInclude.descends {texts : List String}
    (h : ForInclude scope texts progress inner) (hcoherent : progress.Coherent) :
    ∃ path, path ∉ scope.chain ∧ ∃ later,
      inner = ⟨scope.enter path, .file, later⟩ ∧ progress.Extends later := by
  induction h with
  | here hnew => exact ⟨_, hnew, _, rfl, hcoherent.log _, List.Subset.refl _⟩
  | later hnew hnode _ ih =>
    have hnext := (steady_perform _ _).extends (hcoherent.log _) hnode
    obtain ⟨path, hpath, later, rfl, hlater⟩ := ih hnext.coherent
    exact ⟨path, hpath, later, rfl, hlater.coherent, List.Subset.trans hnext.files hlater.files⟩

/-- **Every call that is made descends**, and the progress goes on. -/
theorem Makes.descends (h : call.Makes inner) (hcoherent : call.progress.Coherent) :
    call.Descends inner ∧ call.progress.Extends inner.progress := by
  cases h with
  | contents hfile =>
    obtain ⟨hholds, hmem⟩ := holds_of_fetchMembers hcoherent hfile
    exact ⟨.contents hholds hmem, (steady_fetchMembers _).extends hcoherent hfile⟩
  | item hitem =>
    obtain ⟨j, item, hmem, later, rfl, hlater⟩ := hitem.descends hcoherent
    exact ⟨.part hmem rfl rfl, hlater⟩
  | @included scope members value _ _ _ hinclude =>
    have hreport := (steady_reportIncludes scope value).extends hcoherent
      (reportIncludes_eq scope value _)
    rw [after, reportIncludes_eq] at hinclude
    obtain ⟨path, hpath, later, rfl, hlater⟩ := hinclude.descends hreport.coherent
    exact ⟨.file hpath, hreport.trans hlater⟩
  | block hvalue hincluded =>
    exact ⟨.part (List.mem_map_of_mem (Members.mem_of_get? hvalue)) rfl rfl,
      (steady_expandIncluded _ _).extends hcoherent hincluded⟩
  | member hincluded hblock hmember =>
    have hnext := (steady_expandIncluded _ _).extends hcoherent hincluded
    have hlast := (steady_expandBlock _ _).extends hnext.coherent hblock
    obtain ⟨name, member, hmem, later, rfl, hlater⟩ := hmember.descends hlast.coherent
    exact ⟨.part (List.mem_map_of_mem (Directive.mem_ordinary.1 hmem).1) rfl rfl,
      hnext.trans (hlast.trans hlater)⟩

/-! ### The chain of a call -/

/-- **What holds of the chain at every call.** No file is on it twice, and all of its files were
read in this load, but perhaps its last one: that may just be entered. -/
structure Stacked (call : Call source) : Prop where
  coherent : call.progress.Coherent
  nodup : call.scope.chain.Nodup
  above : call.scope.above ⊆ call.progress.files
  file : ∀ d, call.subject = .document d → call.scope.file ∈ call.progress.files

/-- While a document is expanded, all files of the chain were read. -/
theorem Stacked.chain_subset (h : call.Stacked) {d : Document} (hd : call.subject = .document d) :
    call.scope.chain ⊆ call.progress.files :=
  List.append_subset.2 ⟨h.above, List.cons_subset.2 ⟨h.file d hd, List.nil_subset _⟩⟩

/-- **One call more** leaves the chain as it should be. -/
theorem Stacked.step (h : call.Stacked) (hmakes : call.Makes inner) : inner.Stacked := by
  obtain ⟨hdescends, hextends⟩ := hmakes.descends h.coherent
  cases hdescends with
  | contents _ hmem =>
    exact ⟨hextends.coherent, h.nodup, List.Subset.trans h.above hextends.files, fun _ _ => hmem⟩
  | part _ hfile habove =>
    refine ⟨hextends.coherent, ?_, ?_, fun _ _ => ?_⟩
    · dsimp only [Scope.chain]
      rw [hfile, habove]
      exact h.nodup
    · dsimp only
      rw [habove]
      exact List.Subset.trans h.above hextends.files
    · dsimp only
      rw [hfile]
      exact hextends.files (h.file _ rfl)
  | file hnew =>
    -- a document was being expanded, so the last file of its chain was read as well
    refine ⟨hextends.coherent, ?_, List.Subset.trans (h.chain_subset rfl) hextends.files,
      fun _ hd => nomatch hd⟩
    rw [Scope.chain_enter, ← List.concat_eq_append]
    exact h.nodup.concat hnew

theorem Stacked.reachable {start : Call source} (h : start.Stacked)
    (hreach : ReflTransGen Makes start call) : call.Stacked := by
  induction hreach with
  | refl => exact h
  | tail _ hmakes ih => exact ih.step hmakes

/-- **A chain has at most one file more than there are.** -/
theorem Stacked.length_chain_le (h : call.Stacked) {known : List FilePath}
    (hknown : ∀ path, source.Readable path → path ∈ known) :
    call.scope.chain.length ≤ known.length + 1 := by
  have habove : call.scope.above.Nodup := h.nodup.sublist (List.sublist_append_left _ _)
  have hsubset : call.scope.above ⊆ known := fun path hpath =>
    hknown path (Progress.readable_of_mem_files (h.above hpath))
  rw [Scope.chain, List.length_append, List.length_singleton]
  exact Nat.succ_le_succ (List.subperm_of_subset habove hsubset).length_le

/-! ### What is left to do -/

end Call

/-- The size of the documents in all files together. -/
noncomputable def Source.weight (source : Source) : ℕ :=
  (source.known.map fun path => (source.document path).toOption.elim 0 Document.size).sum

theorem Source.Holds.size_le {source : Source} {path : FilePath} {members : Members Document}
    (h : source.Holds path members) : (Document.object members).size ≤ source.weight := by
  refine List.le_sum_of_mem (List.mem_map.2 ⟨path, mem_known h.readable, ?_⟩)
  rw [holds_iff.1 h]
  rfl

namespace Call

open Load

variable {source : Source} {call inner : Call source}

/-- **What is left to do for a call**: the files that are not on the chain, each with a document of
at most some size, and the rest of this document. -/
noncomputable def weight (call : Call source) : ℕ :=
  match call.subject with
  | .file => source.unvisited call.scope.above * (source.weight + 1)
  | .document d => source.unvisited call.scope.chain * (source.weight + 1) + d.size

/-- **What is left gets less** with every call. -/
theorem Descends.weight_lt (h : call.Descends inner) (hnodup : call.scope.chain.Nodup) :
    inner.weight < call.weight := by
  cases h with
  | @contents scope members _ _ hholds _ =>
    have hnew : scope.file ∉ scope.above := fun hmem =>
      (List.nodup_append.1 hnodup).2.2 _ hmem _ (List.mem_singleton_self _) rfl
    have hunvisited : source.unvisited scope.chain + 1 ≤ source.unvisited scope.above :=
      Source.unvisited_append_lt hholds.readable hnew
    calc source.unvisited scope.chain * (source.weight + 1) + (Document.object members).size
      _ < (source.unvisited scope.chain + 1) * (source.weight + 1) := by
        rw [Nat.succ_mul]
        exact Nat.add_lt_add_left (Nat.lt_succ_of_le hholds.size_le) _
      _ ≤ source.unvisited scope.above * (source.weight + 1) :=
        Nat.mul_le_mul_right _ hunvisited
  | @part scope below d part _ _ hpart hfile habove =>
    have hchain : below.chain = scope.chain := by rw [Scope.chain, Scope.chain, hfile, habove]
    dsimp only [weight]
    rw [hchain]
    exact Nat.add_lt_add_left (Document.size_lt_of_mem_parts hpart) _
  | @file scope d path _ _ _ =>
    exact Nat.lt_add_of_pos_right d.size_pos

theorem Stacked.weight_lt (h : call.Stacked) (hmakes : call.Makes inner) :
    inner.weight < call.weight :=
  (hmakes.descends h.coherent).1.weight_lt h.nodup

/-- **Calls are nested only finitely deep.** -/
theorem Stacked.acc (h : call.Stacked) : Acc (fun inner call => Makes call inner) call := by
  induction hweight : call.weight using Nat.strong_induction_on generalizing call with
  | _ n ih =>
    exact ⟨call, fun inner hmakes =>
      ih inner.weight (hweight ▸ h.weight_lt hmakes) (h.step hmakes) rfl⟩

/-- **Unrolled far enough**, the recursion gives what a call comes to, whatever is called at the
bottom. -/
theorem Stacked.runBy_iterate (self : Scope → Subject → Load source Marked) {depth : ℕ}
    (h : call.Stacked) (hdepth : call.weight < depth) : call.RunBy (bodyWith^[depth] self) := by
  induction depth generalizing call with
  | zero => omega
  | succ depth ih =>
    -- the outermost body calls what is unrolled once less, with less left to do
    rw [Function.iterate_succ_apply']
    refine bodyWith_eq_run fun inner hmakes => ih (h.step hmakes) ?_
    exact Nat.lt_of_lt_of_le (h.weight_lt hmakes) (Nat.le_of_lt_succ hdepth)

/-- An object makes a call for the first file that it includes. -/
theorem makes_first_include {scope : Scope} {members : Members Document} {value : Document}
    {text : String} {rest : List String} (progress : Progress source)
    (hvalue : members.get? Directive.includeKey = some value)
    (htexts : Directive.includedTexts value = text :: rest)
    (hnew : scope.target text ∉ scope.chain) : ∃ later,
      Makes ⟨scope, .document (.object members), progress⟩
        ⟨scope.enter (scope.target text), .file, later⟩ := by
  have hfirst : ForInclude scope (text :: rest) (after (reportIncludes scope value) progress) _ :=
    .here hnew
  exact ⟨_, .included hvalue (htexts ▸ hfirst)⟩

/-! ### The call that a load makes -/

/-- **The call that the load of a root file makes.** -/
def start (source : Source) (root : FilePath) : Call source :=
  ⟨.top root, .file, after (emit (.loading root)) .start⟩

theorem stacked_start (root : FilePath) : (start source root).Stacked :=
  ⟨Progress.coherent_start.log _, List.nodup_singleton root, List.nil_subset _,
    fun _ hd => nomatch hd⟩

end Call

namespace Load

variable {source : Source}

/-- The load of a root file, with a parameter for the call that it makes. -/
def rootWith (self : Scope → Subject → Load source Marked) (root : FilePath) :
    Load source Loaded := do
  emit (.loading root)
  let node ← self (.top root) .file
  finish node.members

theorem rootWith_perform (root : FilePath) :
    rootWith perform root = (Load.root root : Load source Loaded) := by
  rw [rootWith, Load.root, expandRoot, perform_file_bind]
  simp only [bind_assoc]
  rfl

/-- A load depends on one call. -/
theorem toReport_rootWith {self : Scope → Subject → Load source Marked} {root : FilePath}
    (h : (Call.start source root).RunBy self) :
    (rootWith self root).toReport = (Load.root root : Load source Loaded).toReport := by
  have hrun : rootWith self root .start = rootWith perform root .start := by
    rw [rootWith, rootWith, emit_bind, emit_bind]
    exact bind_congr_at h fun _ _ _ => rfl
  rw [toReport, toReport, EStateM.run, EStateM.run, hrun, rootWith_perform]

end Load

/-! ### Every load ends -/

/-- **The recursion of a load ends.** Unrolled to some depth, it gives the report, whatever is
called below that depth; and at every call, nested as deep as it may be, the rest holds. -/
structure Source.Ends (source : Source) (root : FilePath) (report : Report) : Prop where
  unrolled : ∃ depth, ∀ self,
    report = (Load.rootWith (Load.bodyWith^[depth] self) root : Load source Loaded).toReport
  /-- There is no infinite sequence of calls in which each makes the next. -/
  nested : Acc (fun inner call => Call.Makes call inner) (Call.start source root)
  stacked : ∀ call, ReflTransGen Call.Makes (Call.start source root) call → call.Stacked
  normal : ∀ call, ReflTransGen Call.Makes (Call.start source root) call →
    ∀ path ∈ call.scope.chain, FilePath.IsNormal path.text
  bounded : ∀ call, ReflTransGen Call.Makes (Call.start source root) call →
    ∀ known : List FilePath, (∀ path, source.Readable path → path ∈ known) →
      call.scope.chain.length ≤ known.length + 1
  descends : ∀ call inner, ReflTransGen Call.Makes (Call.start source root) call →
    call.Makes inner → call.Descends inner
  /-- No calls matter but those that a call makes. -/
  complete : ∀ call self, ReflTransGen Call.Makes (Call.start source root) call →
    (∀ inner, call.Makes inner → inner.RunBy self) → call.RunBy (Load.bodyWith self)

theorem Source.ends_root (source : Source) (root : FilePath) :
    source.Ends root (Load.root root : Load source Loaded).toReport where
  unrolled := ⟨_, fun self => (Load.toReport_rootWith
    ((Call.stacked_start root).runBy_iterate self (Nat.lt_succ_self _))).symm⟩
  nested := (Call.stacked_start root).acc
  stacked _ hreach := (Call.stacked_start root).reachable hreach
  normal _ _ path _ := path.isNormal_text
  bounded _ hreach _ hknown := ((Call.stacked_start root).reachable hreach).length_chain_le hknown
  descends _ _ hreach hmakes :=
    (hmakes.descends ((Call.stacked_start root).reachable hreach).coherent).1
  complete _ _ _ := Call.bodyWith_eq_run

/-- **Every load ends**, over every source of files: at once where it has no root file, and else
because its recursion does. -/
theorem load_ends (env : Environment) (cwd path : String) :
    (∃ e, load env cwd path = ⟨.error e, [], []⟩ ∧
      (path = "" ∨ ∃ cause, env.directory cwd = .error cause)) ∨
    ∃ dir, path ≠ "" ∧ env.directory cwd = .ok dir ∧
      env.source.Ends (dir.resolve path) (load env cwd path) := by
  rw [load]
  split
  · exact Or.inl ⟨_, rfl, Or.inl ‹_›⟩
  · split
    · exact Or.inl ⟨_, rfl, Or.inr ⟨_, ‹_›⟩⟩
    · exact Or.inr ⟨_, ‹_›, ‹_›, env.source.ends_root _⟩

/-- The files of a store are those under the texts of its keys. -/
theorem MemoryFiles.mem_of_readable {files : MemoryFiles} {path : FilePath}
    (h : files.source.Readable path) : path ∈ files.keys.map FilePath.root.resolve := by
  obtain ⟨n, text, h⟩ := h
  rw [answer_source] at h
  rcases hfile : files.get? path.text with _ | file
  · rw [hfile] at h
    nomatch h
  · exact List.mem_map.2 ⟨path.text, List.mem_map_of_mem (Members.mem_of_get? hfile),
      FilePath.resolve_text _ _⟩

/-- Two files that include each other: the recursion comes to both, and ends. -/
theorem load_of_mutual_includes :
    ∃ (files : MemoryFiles) (root : FilePath) (call : Call files.source),
      ReflTransGen Call.Makes (Call.start files.source root) call ∧
      call.scope.chain = ["a", "b"].map FilePath.root.resolve ∧
      call.scope.chain.length ≤ files.length + 1 ∧
      ∃ depth, ∀ self, load files.environment "/" "a" =
        (Load.rootWith (Load.bodyWith^[depth] self) root : Load files.source Loaded).toReport := by
  let members : Members Document := [("#include", .scalar (.string "b"))]
  let files : MemoryFiles := .ofDocuments [("/a", .object members),
    ("/b", .object [("#include", .scalar (.string "a"))])]
  let root := FilePath.root.resolve "a"
  have hdir : files.environment.directory "/" = .ok .root := by cbv
  have hholds : files.source.Holds root members := ⟨_, rfl, by cbv⟩
  obtain ⟨_, -, h | ⟨_, h⟩⟩ | ⟨dir, -, hdir', hends⟩ := load_ends files.environment "/" "a"
  · exact absurd h (by decide)
  · cases hdir.symm.trans h
  obtain rfl : dir = .root := Except.ok.inj (hdir'.symm.trans hdir)
  -- the root file is read, and the object in it includes the other one
  let start := Call.start files.source root
  have hresult : Load.result (Load.fetchMembers root) start.progress =
      .ok ⟨members, hholds.readable⟩ := by
    rw [(Load.steady_fetchMembers root).result_eq _ (Call.stacked_start root).coherent]
    exact Load.outcome_fetchMembers_eq_ok.2 hholds
  have hfetch : Load.fetchMembers (Scope.top root).file start.progress =
      .ok ⟨members, hholds.readable⟩ _ := Load.eq_ok_of_result hresult
  have hvalue : members.get? Directive.includeKey = some (.scalar (.string "b")) := rfl
  have hincluded := Call.makes_first_include (Load.after (Load.fetchMembers root) start.progress)
    hvalue (show Directive.includedTexts (.scalar (.string "b")) = ["b"] by decide)
    (show (Scope.top root).target "b" ∉ (Scope.top root).chain by decide)
  obtain ⟨_, hincluded⟩ := hincluded
  have hreach := (ReflTransGen.single (Call.Makes.contents hfetch)).tail hincluded
  have hchain : ((Scope.top root).enter ((Scope.top root).target "b")).chain =
      ["a", "b"].map FilePath.root.resolve := by decide
  refine ⟨files, root, _, hreach, hchain, ?_, hends.unrolled⟩
  have hbound := hends.bounded _ hreach _ fun _ => MemoryFiles.mem_of_readable
  rwa [Members.keys, List.length_map, List.length_map] at hbound

end ConfigTree
