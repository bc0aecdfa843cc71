import ConfigTree.Proofs.Coupling
import ConfigTree.Proofs.Outcome
import ConfigTree.Proofs.Scalars

/-!
# Corresponding documents

When documents do the same in an expansion, but for what a function hides of their scalars: arrays
correspond item by item, and objects in their directives and their other members. That is all that
a relation between the documents of two sources has to satisfy (`ConfigTree.Correspondence`), file
by file, for every expansion from the one source to be coupled with the same expansion from the
other (`ConfigTree.Load.couples_expansion`). Their trees become equal when the function is applied
to them.

So two loads show the same in all but scalars (`ConfigTree.load_corresponds`), and where the
function hides nothing, they are equal.
-/

namespace ConfigTree

variable {source other : Source} {f : Scalar → Scalar} {D : FilePath → Document → Document → Prop}

/-- **Include values that do the same** in a file: their texts name the same files in order, and the
same is reported of them. -/
structure SameIncludes (file : FilePath) (value value' : Document) : Prop where
  targets : List.Forall₂ (fun text text' => file.parent.resolve text = file.parent.resolve text')
    (Directive.includedTexts value) (Directive.includedTexts value')
  reported : ∀ scope : Scope, scope.file = file →
    Load.reported scope value = Load.reported scope value'

theorem SameIncludes.refl (file : FilePath) (value : Document) : SameIncludes file value value :=
  ⟨List.forall₂_same.2 fun _ _ => rfl, fun _ _ => rfl⟩

/-- **Objects that correspond** in a file: their directives do, and their other members one by one,
under the same keys. -/
structure SameParts (D : Document → Document → Prop) (file : FilePath)
    (members members' : Members Document) : Prop where
  included : Option.Rel (SameIncludes file) (members.get? Directive.includeKey)
    (members'.get? Directive.includeKey)
  block : Option.Rel D (members.get? Directive.publicKey) (members'.get? Directive.publicKey)
  ordinary : List.Forall₂ (fun member member' => member.1 = member'.1 ∧ D member.2 member'.2)
    (Directive.ordinary members) (Directive.ordinary members')

/-- **Correspondences of documents**, which do the same in an expansion but for what the function
hides of their scalars. -/
structure Correspondence (f : Scalar → Scalar) (D : FilePath → Document → Document → Prop) :
    Prop where
  scalar : ∀ {file s d}, D file (.scalar s) d → ∃ s', d = .scalar s' ∧ f s = f s'
  array : ∀ {file items d}, D file (.array items) d →
    ∃ items', d = .array items' ∧ List.Forall₂ (D file) items items'
  object : ∀ {file members d}, D file (.object members) d →
    ∃ members', d = .object members' ∧ SameParts (D file) file members members'

/-- **Corresponding sources** give the same error or corresponding documents under every path. -/
def Source.Corresponds (D : FilePath → Document → Document → Prop) (source other : Source) : Prop :=
  ∀ path, SameOutcome (D path) (source.document path) (other.document path)

theorem Correspondence.sameParts (h : Correspondence f D) {file : FilePath}
    {members members' : Members Document} (hd : D file (.object members) (.object members')) :
    SameParts (D file) file members members' := by
  obtain ⟨_, ⟨⟩, hparts⟩ := h.object hd
  exact hparts

namespace Load

open Document

/-- Trees that are the same but for what the function hides of their scalars. -/
def SameMembers (f : Scalar → Scalar) (tree tree' : Members (Bool × Marked)) : Prop :=
  Marked.mapMembers f tree = Marked.mapMembers f tree'

theorem SameMembers.merge {base base' layer layer' : Members (Bool × Marked)}
    (hbase : SameMembers f base base') (hlayer : SameMembers f layer layer') :
    SameMembers f (Marked.mergeMembers base layer) (Marked.mergeMembers base' layer') := by
  rw [SameMembers, Marked.mapMembers_mergeMembers, Marked.mapMembers_mergeMembers, hbase, hlayer]

theorem couples_reportIncludes {scope : Scope} {value value' : Document}
    (h : SameIncludes scope.file value value') :
    Couples D Eq (reportIncludes scope value : Load source _)
      (reportIncludes scope value' : Load other _) := by
  refine couples_of_log (· ++ (reported scope value).toArray) (reportIncludes_eq scope value) ?_
  rw [h.reported scope rfl]
  exact reportIncludes_eq scope value'

/-- Fetching members is coupled. -/
theorem couples_fetchMembers (hD : Correspondence f D) (h : source.Corresponds D other)
    (path : FilePath) :
    Couples D (fun file file' => D path (.object file.value) (.object file'.value))
      (fetchMembers path : Load source _) (fetchMembers path : Load other _) := by
  rw [fetchMembers_eq, fetchMembers_eq]
  refine (couples_fetch (h path)).bind (steady_fetch path) fun file file' hfile => ?_
  obtain ⟨d, hreadable⟩ := file
  obtain ⟨d', hreadable'⟩ := file'
  dsimp only at hfile
  rcases d with s | items | members
  · obtain ⟨s', rfl, -⟩ := hD.scalar hfile
    exact couples_throw _
  · obtain ⟨items', rfl, -⟩ := hD.array hfile
    exact couples_throw _
  · obtain ⟨members', rfl, -⟩ := hD.object hfile
    exact couples_pure hfile

/-- Public blocks are coupled: corresponding objects by assumption, and anything else is at
fault on both sides. -/
theorem couples_expandBlock (hD : Correspondence f D) {scope : Scope}
    {members members' : Members Document}
    (hparts : SameParts (D scope.file) scope.file members members')
    (hblock : ∀ block, members.get? Directive.publicKey = some (.object block) →
      ∀ block', D scope.file (.object block) (.object block') →
        Couples D (SameMembers f) (expandObject scope.inBlock block : Load source _)
          (expandObject scope.inBlock block' : Load other _)) :
    Couples D (SameMembers f) (expandBlock scope members : Load source _)
      (expandBlock scope members' : Load other _) := by
  have hpublic := hparts.block
  rw [expandBlock, expandBlock]
  rcases hd : members.get? Directive.publicKey with _ | d <;>
    rcases hd' : members'.get? Directive.publicKey with _ | d' <;>
    rw [hd, hd'] at hpublic <;> cases hpublic
  · exact couples_pure rfl
  · rename_i hvalue
    rcases d with s | items | block
    · obtain ⟨s', rfl, -⟩ := hD.scalar hvalue
      exact couples_throw _
    · obtain ⟨items', rfl, -⟩ := hD.array hvalue
      exact couples_throw _
    · obtain ⟨block', rfl, -⟩ := hD.object hvalue
      exact hblock block hd block' hvalue

/-- Objects are coupled when their three parts are. -/
theorem couples_object {scope : Scope} {members members' : Members Document}
    (hincluded : Couples D (SameMembers f) (expandIncluded scope members : Load source _)
      (expandIncluded scope members' : Load other _))
    (hblock : Couples D (SameMembers f) (expandBlock scope members : Load source _)
      (expandBlock scope members' : Load other _))
    (hown : Couples D (SameMembers f)
      (expandMembers scope [] (Directive.ordinary members) : Load source _)
      (expandMembers scope [] (Directive.ordinary members') : Load other _)) :
    Couples D (SameMembers f) (expandObject scope members : Load source _)
      (expandObject scope members' : Load other _) := by
  rw [expandObject_eq, expandObject_eq]
  exact hincluded.bind (steady_expandIncluded _ _) fun _ _ hi =>
    hblock.bind (steady_expandBlock _ _) fun _ _ hb =>
      hown.bind (steady_expandMembers _ _ _) fun _ _ ho =>
        couples_pure ((hi.merge hb).merge ho)

/-- The files that objects include are coupled when they are named by the same texts, or by texts
that come to the same. -/
theorem couples_expandIncluded {scope : Scope} {members members' : Members Document}
    (hparts : SameParts (D scope.file) scope.file members members')
    (hincludes : ∀ value, members.get? Directive.includeKey = some value → ∀ texts',
      List.Forall₂ (fun text text' => scope.target text = scope.target text')
        (Directive.includedTexts value) texts' →
      Couples D (SameMembers f)
        (expandIncludes scope (Directive.includedTexts value) [] : Load source _)
        (expandIncludes scope texts' [] : Load other _)) :
    Couples D (SameMembers f) (expandIncluded scope members : Load source _)
      (expandIncluded scope members' : Load other _) := by
  have hincluded := hparts.included
  rw [expandIncluded, expandIncluded]
  rcases hd : members.get? Directive.includeKey with _ | value <;>
    rcases hd' : members'.get? Directive.includeKey with _ | value' <;>
    rw [hd, hd'] at hincluded <;> cases hincluded
  · exact couples_pure rfl
  · rename_i hvalue
    exact (couples_reportIncludes hvalue).bind (steady_reportIncludes scope value)
      fun _ _ _ => hincludes value hd _ hvalue.targets

/-- **Expansions are coupled**, all five together along their recursion. -/
theorem couples_expansion (hD : Correspondence f D) (h : source.Corresponds D other) :
    (∀ scope members members', D scope.file (.object members) (.object members') →
      Couples D (SameMembers f) (expandObject scope members : Load source _)
        (expandObject scope members' : Load other _)) ∧
    (∀ scope texts merged texts',
      List.Forall₂ (fun text text' => scope.target text = scope.target text') texts texts' →
      ∀ merged', SameMembers f merged merged' →
      Couples D (SameMembers f) (expandIncludes scope texts merged : Load source _)
        (expandIncludes scope texts' merged' : Load other _)) ∧
    (∀ scope taken members members',
      List.Forall₂ (fun member member' => member.1 = member'.1 ∧ D scope.file member.2 member'.2)
        members members' →
      Couples D (SameMembers f) (expandMembers scope taken members : Load source _)
        (expandMembers scope taken members' : Load other _)) ∧
    (∀ scope d d', D scope.file d d' →
      Couples D (fun t t' => t.mapScalars f = t'.mapScalars f)
        (expand scope d : Load source _) (expand scope d' : Load other _)) ∧
    ∀ scope i items items', List.Forall₂ (D scope.file) items items' →
      Couples D (fun ts ts' => Marked.mapItems f ts = Marked.mapItems f ts')
        (expandItems scope i items : Load source _)
        (expandItems scope i items' : Load other _) := by
  refine @expandObject.mutual_induct source _ _ _ _ _ ?_ ?_ ?_ ?_ ?_ ?_ ?_ ?_ ?_ ?_ ?_ ?_ ?_
  · intro scope members hnone hown hblock members' hd
    have hparts := hD.sameParts hd
    refine couples_object (couples_expandIncluded hparts fun value hsome => ?_)
      (couples_expandBlock hD hparts hblock) (hown _ hparts.ordinary)
    cases hnone.symm.trans hsome
  · intro scope members value hsome hown hblock hincludes members' hd
    have hparts := hD.sameParts hd
    refine couples_object (couples_expandIncluded hparts fun value' hsome' texts' htexts => ?_)
      (couples_expandBlock hD hparts hblock) (hown _ hparts.ordinary)
    obtain rfl : value = value' := Option.some.inj (hsome.symm.trans hsome')
    exact hincludes texts' htexts [] rfl
  · rintro scope merged _ ⟨⟩ merged' hmerged
    rw [expandIncludes, expandIncludes]
    exact couples_pure hmerged
  · rintro scope text rest merged path hchain _ (_ | ⟨htext, -⟩) merged' hmerged
    -- one chain, one target: both sides find the same cycle
    rw [expandIncludes, expandIncludes, dif_pos hchain, dif_pos (htext ▸ hchain), htext]
    exact couples_throw _
  · rintro scope text rest merged path hchain hfile hrest _ (_ | ⟨htext, htexts⟩) merged' hmerged
    rw [expandIncludes, expandIncludes, dif_neg hchain, dif_neg (htext ▸ hchain), ← htext]
    exact (couples_emit _).bind (steady_emit _) fun _ _ _ =>
      (couples_fetchMembers hD h path).bind (steady_fetchMembers path) fun file file' hd =>
        (hfile file _ hd).bind (steady_expandObject _ _) fun tree tree' htree =>
          hrest tree _ htexts _ (hmerged.merge htree)
  · rintro scope taken _ ⟨⟩
    rw [expandMembers, expandMembers]
    exact couples_pure rfl
  · rintro scope taken key value rest name marked hname htaken _ _ _ (_ | ⟨⟨hkey, hvalue'⟩, hrest'⟩)
    rename_i member' rest'
    obtain ⟨key', value'⟩ := member'
    obtain rfl : key = key' := hkey
    obtain rfl : Directive.name key = name := congrArg Prod.fst hname
    -- corresponding members have one key, so they collide on both sides
    rw [expandMembers_cons, expandMembers_cons, if_pos htaken, if_pos htaken]
    exact couples_throw _
  · rintro scope taken key value rest name marked hname htaken hvalue hrest _
      (_ | ⟨⟨hkey, hvalue'⟩, hrest'⟩)
    rename_i member' rest'
    obtain ⟨key', value'⟩ := member'
    obtain rfl : key = key' := hkey
    obtain rfl : Directive.name key = name := congrArg Prod.fst hname
    rw [expandMembers_cons, expandMembers_cons, if_neg htaken, if_neg htaken]
    refine (hvalue _ hvalue').bind (steady_expand _ _) fun node node' hnode =>
      (hrest _ hrest').bind (steady_expandMembers _ _ _) fun others others' hothers =>
        couples_pure ?_
    rw [SameMembers, Marked.mapMembers, Marked.mapMembers, hnode, hothers]
  · intro scope s d' hd
    obtain ⟨s', rfl, hs⟩ := hD.scalar hd
    rw [expand, expand]
    refine couples_pure ?_
    rw [Marked.mapScalars, Marked.mapScalars, hs]
  · intro scope items hitems d' hd
    obtain ⟨items', rfl, hall⟩ := hD.array hd
    rw [expand, expand]
    refine (hitems _ hall).bind (steady_expandItems _ _ _) fun nodes nodes' hnodes =>
      couples_pure ?_
    rw [Marked.mapScalars, Marked.mapScalars, hnodes]
  · intro scope members hmembers d' hd
    obtain ⟨members', rfl, -⟩ := hD.object hd
    rw [expand, expand]
    refine (hmembers _ hd).bind (steady_expandObject _ _) fun tree tree' htree =>
      couples_pure ?_
    rw [Marked.mapScalars, Marked.mapScalars, htree]
  · rintro scope i _ ⟨⟩
    rw [expandItems, expandItems]
    exact couples_pure rfl
  · rintro scope i item rest hitem hrest _ (_ | ⟨hitem', hrest'⟩)
    rw [expandItems, expandItems]
    refine (hitem _ hitem').bind (steady_expand _ _) fun node node' hnode =>
      (hrest _ hrest').bind (steady_expandItems _ _ _) fun others others' hothers =>
        couples_pure ?_
    rw [Marked.mapItems, Marked.mapItems, hnode, hothers]

theorem couples_expandRoot (hD : Correspondence f D) (h : source.Corresponds D other)
    (root : FilePath) :
    Couples D (SameMembers f) (expandRoot root : Load source _)
      (expandRoot root : Load other _) :=
  (couples_emit _).bind (steady_emit _) fun _ _ _ =>
    (couples_fetchMembers hD h root).bind (steady_fetchMembers root) fun _ _ hd =>
      (couples_expansion hD h).1 _ _ _ hd

end Load

/-! ### Reports -/

/-- Configurations that are the same but for what the function hides of their scalars. -/
structure Loaded.Same (f : Scalar → Scalar) (loaded loaded' : Loaded) : Prop where
  members : Document.mapMembers f [] loaded.members = Document.mapMembers f [] loaded'.members
  publicPaths : loaded.publicPaths = loaded'.publicPaths
  files : loaded.files = loaded'.files

/-- **Reports that are the same** but for what the function hides of the scalars in their
configurations. -/
structure Report.Same (f : Scalar → Scalar) (report report' : Report) : Prop where
  outcome : SameOutcome (Loaded.Same f) report.outcome report'.outcome
  reads : report.reads = report'.reads
  log : report.log = report'.log

namespace Load

open Document

/-- What is read off trees that are the same is the same. -/
theorem couples_finish {tree tree' : Members (Bool × Marked)} (h : SameMembers f tree tree') :
    Couples D (Loaded.Same f) (finish tree : Load source _)
      (finish tree' : Load other _) := by
  -- what is counted, and where the marks are, does not depend on scalars
  have hpaths : Marked.memberPaths tree = Marked.memberPaths tree' := by
    rw [← Marked.memberPaths_mapMembers (f := f), h, Marked.memberPaths_mapMembers]
  intro progress progress' _ hmatch
  rw [result_finish, result_finish, after_finish, after_finish, ← hpaths, ← hmatch.files_eq]
  refine ⟨.ok ⟨?_, rfl, rfl⟩, hmatch.log fun log =>
    (log.push (.extracted (Marked.memberPaths tree).length)).push (.loaded progress.files.length)⟩
  rw [← Marked.plainMembers_mapMembers, h, Marked.plainMembers_mapMembers]

theorem Couples.toReport {load : Load source Loaded} {load' : Load other Loaded}
    (h : Couples D (Loaded.Same f) load load') :
    Report.Same f load.toReport load'.toReport := by
  obtain ⟨houtcome, hafter⟩ := h .start .start Progress.coherent_start Progress.matches_start
  rw [toReport_eq, toReport_eq]
  exact ⟨houtcome, hafter.reads_eq, congrArg Array.toList hafter.log_eq⟩

end Load

/-- **Loads from corresponding sources** show the same. -/
theorem load_corresponds {env : Environment} (hD : Correspondence f D)
    (h : env.source.Corresponds D other) (cwd path : String) :
    Report.Same f (load env cwd path) (load { env with source := other } cwd path) := by
  rw [load, load]
  split
  · exact ⟨.error _, rfl, rfl⟩
  · rw [show Environment.directory { env with source := other } cwd = env.directory cwd from rfl]
    split
    · exact ⟨.error _, rfl, rfl⟩
    · exact ((Load.couples_expandRoot hD h _).bind (Load.steady_expandRoot _) fun _ _ hsame =>
        Load.couples_finish hsame).toReport

/-- Where the function hides nothing, reports that are the same are equal. -/
theorem Report.Same.eq {report report' : Report} (h : Report.Same id report report') :
    report = report' := by
  obtain ⟨outcome, reads, log⟩ := report
  obtain ⟨outcome', reads', log'⟩ := report'
  obtain ⟨houtcome, rfl, rfl⟩ := h
  cases houtcome with
  | error e => rfl
  | @ok loaded loaded' hloaded =>
    obtain ⟨members, paths, files⟩ := loaded
    obtain ⟨members', paths', files'⟩ := loaded'
    obtain ⟨hmembers, rfl, rfl⟩ := hloaded
    simp only [Document.mapMembers_id] at hmembers
    rw [hmembers]

end ConfigTree
