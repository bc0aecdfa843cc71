import ConfigTree.Proofs.Story
import ConfigTree.Proofs.Walk

/-!
# What a load reports

The log of a load tells what happened. It begins with the root file, from there on it is the story
of an expansion, and a success adds the counts of the public paths and of the files. The properties
of a log are read off its story, which is done by cutting the story in front of one of its lines
(`ConfigTree.Told.cut`). A story of the root file gives the whole report
(`ConfigTree.Load.toReport_root_of_recounts`).
-/

namespace ConfigTree

/-! ### Reports -/

/-- **A report with a log that tells the truth.** The lines about reading give the reads. A line
about an inclusion is followed by one about the use of that file, and this is where all lines about
the use of a file are, but for the one in which the root file is read. The first line about the use
of a path says that it is read, and all later ones that it was. A success has entered as many files
as were announced, and ends with the counts of the public paths and of the files, and there are as
many files as lines about reading. A failure has no such end. -/
structure Report.Truthful (report : Report) : Prop where
  readings : report.log.filterMap Event.read? = report.reads
  followed : ∀ (before : List Event) (file path : FilePath) (rest : List Event),
    report.log = before ++ .including file path :: rest →
    ∃ (event : Event) (later : List Event), rest = event :: later ∧ event.Uses path
  preceded : ∀ (before : List Event) (event : Event) (path : FilePath) (rest : List Event),
    report.log = before ++ event :: rest → event.Uses path →
    (before = [.loading path] ∧ event = .reading path) ∨
      ∃ (earlier : List Event) (file : FilePath), before = earlier ++ [.including file path]
  first : ∀ (before : List Event) (event : Event) (path : FilePath) (rest : List Event),
    report.log = before ++ event :: rest → event.Uses path →
    (event = .reading path ↔ ∀ other ∈ before, ¬other.Uses path)
  success : ∀ loaded, report.outcome = .ok loaded →
    (report.log.map Event.announced).sum = report.log.countP Event.isIncluding ∧
    (∃ front : List Event, report.log =
        front ++ [.extracted loaded.publicPaths.length, .loaded loaded.files.length] ∧
      ∀ event ∈ front, event.isClosing = false) ∧
    loaded.files.length = (report.log.filterMap Event.read?).length
  failure : ∀ e, report.outcome = .error e → ∀ event ∈ report.log, event.isClosing = false

section Log

variable {root path file : FilePath} {story tail before rest : List Event} {event : Event}
  {later : List FilePath}

/-- A line about an inclusion is followed by the use of the file. -/
theorem Told.followed (h : Told [root] story later) (htail : ∀ event ∈ tail, event.isClosing = true)
    (hlog : .loading root :: .reading root :: (story ++ tail) =
      before ++ .including file path :: rest) :
    ∃ mid more, rest = .use mid path :: more := by
  rcases before with _ | ⟨_, _ | ⟨_, before⟩⟩
  · nomatch hlog
  · nomatch hlog
  · simp only [List.cons_append, List.cons.injEq] at hlog
    obtain ⟨mid, _, _, more, -, heq, hrest⟩ | ⟨mid, _, _, _, -, -, heq⟩ :=
      h.cut hlog.2.2 (fun hmem => nomatch htail _ hmem) rfl
    · cases heq
      exact ⟨mid, more, hrest⟩
    · exact absurd (heq ▸ Event.uses_use) (Event.not_uses_including _ _ _)

/-- A line about the use of a file is the one in which the root file is read, or it follows a line
about an inclusion. -/
theorem Told.preceded (h : Told [root] story later) (htail : ∀ event ∈ tail, event.isClosing = true)
    (hlog : .loading root :: .reading root :: (story ++ tail) = before ++ event :: rest)
    (huses : event.Uses path) :
    (before = [.loading path] ∧ event = .reading path) ∨
      ∃ (mid : List FilePath) (file : FilePath) (front : List Event), Told [root] front mid ∧
        before = .loading root :: .reading root :: (front ++ [.including file path]) ∧
        event = .use mid path := by
  rcases before with _ | ⟨_, _ | ⟨_, before⟩⟩
  · simp only [List.nil_append, List.cons.injEq] at hlog
    obtain ⟨rfl, -⟩ := hlog
    rcases huses with h | h <;> nomatch h
  · simp only [List.cons_append, List.nil_append, List.cons.injEq] at hlog
    obtain ⟨rfl, rfl, -⟩ := hlog
    obtain rfl := huses.unique (Or.inl rfl)
    exact Or.inl ⟨rfl, rfl⟩
  · simp only [List.cons_append, List.cons.injEq] at hlog
    obtain ⟨rfl, rfl, hstory⟩ := hlog
    have hnotClosing : event ∉ tail := fun hmem => by
      rcases huses with rfl | rfl <;> nomatch htail _ hmem
    obtain ⟨_, _, _, _, -, rfl, -⟩ | ⟨mid, file, target, front, htold, rfl, rfl⟩ :=
      h.cut hstory hnotClosing (Event.not_isRemark_of_uses huses)
    · exact absurd huses (Event.not_uses_including _ _ _)
    · obtain rfl := Event.uses_use_iff.1 huses
      exact Or.inr ⟨mid, file, front, htold, rfl, rfl⟩

/-- The first line about the use of a file says that it is read, and the others that it was. -/
theorem Told.first (h : Told [root] story later) (htail : ∀ event ∈ tail, event.isClosing = true)
    (hlog : .loading root :: .reading root :: (story ++ tail) = before ++ event :: rest)
    (huses : event.Uses path) :
    event = .reading path ↔ ∀ other ∈ before, ¬other.Uses path := by
  have hloading (target : FilePath) : ¬Event.Uses (.loading target) path := by
    rintro (h | h) <;> nomatch h
  have hreading : Event.Uses (.reading root) path ↔ path = root :=
    ⟨fun h => h.unique (Or.inl rfl), fun h => h ▸ Or.inl rfl⟩
  obtain ⟨rfl, rfl⟩ | ⟨mid, file, front, hmid, rfl, rfl⟩ := h.preceded htail hlog huses
  · exact iff_of_true rfl fun other hother => List.mem_singleton.1 hother ▸ hloading path
  · rw [Event.use_eq_reading_iff, hmid.mem_later_iff, List.mem_singleton]
    simp only [List.forall_mem_cons, List.forall_mem_append, List.not_mem_nil, hreading, hloading,
      Event.not_uses_including, not_false_eq_true, true_and, and_true, not_or, not_exists, not_and,
      IsEmpty.forall_iff, implies_true]

end Log

/-- **The end of a log**, by the outcome of the load. -/
def Report.closing : Except LoadError Loaded → List Event
  | .ok loaded => [.extracted loaded.publicPaths.length, .loaded loaded.files.length]
  | .error _ => []

theorem Report.isClosing_of_mem_closing {outcome : Except LoadError Loaded} {event : Event}
    (h : event ∈ closing outcome) : event.isClosing = true := by
  rcases outcome with e | loaded
  · nomatch h
  · rcases List.mem_pair.1 h with rfl | rfl <;> rfl

/-- **A report with a story** between its beginning and its end is truthful. -/
theorem Report.truthful_of_told {report : Report} {root : FilePath} {story : List Event}
    (hlog : report.log = .loading root :: .reading root :: (story ++ closing report.outcome))
    (htold : Told [root] story report.reads)
    (hok : ∀ loaded, report.outcome = .ok loaded →
      balance story = 0 ∧ loaded.files = report.reads) : report.Truthful := by
  have htail : ∀ event ∈ closing report.outcome, event.isClosing = true :=
    fun _ => isClosing_of_mem_closing
  have hreadings : report.log.filterMap Event.read? = report.reads := by
    have hclosing : (closing report.outcome).filterMap Event.read? = [] := by
      rcases report.outcome with e | loaded <;> rfl
    rw [hlog, htold.later_eq, List.filterMap_cons_none rfl,
      List.filterMap_cons_some (f := Event.read?) rfl, List.filterMap_append, hclosing,
      List.append_nil]
    rfl
  -- nothing but the end belongs to the end
  have hfront : ∀ event ∈ .loading root :: .reading root :: story, event.isClosing = false :=
    List.forall_mem_cons.2 ⟨rfl, List.forall_mem_cons.2 ⟨rfl, htold.not_isClosing⟩⟩
  refine ⟨hreadings, fun before file path rest hsplit => ?_,
    fun before event path rest hsplit huses => ?_, fun before event path rest hsplit huses => ?_,
    fun loaded hloaded => ?_, fun e he event hevent => ?_⟩
  · obtain ⟨mid, more, rfl⟩ := htold.followed htail (hlog.symm.trans hsplit)
    exact ⟨_, more, rfl, Event.uses_use⟩
  · obtain h | ⟨mid, file, front, -, rfl, -⟩ :=
      htold.preceded htail (hlog.symm.trans hsplit) huses
    · exact Or.inl h
    · exact Or.inr ⟨.loading root :: .reading root :: front, file, rfl⟩
  · exact htold.first htail (hlog.symm.trans hsplit) huses
  · obtain ⟨hbalance, hfiles⟩ := hok loaded hloaded
    rw [hloaded] at hlog
    refine ⟨?_, ⟨.loading root :: .reading root :: story, hlog, hfront⟩, ?_⟩
    · have hwhole : balance report.log = balance [.loading root, .reading root] +
          (balance story + balance (closing (.ok loaded))) := by
        rw [hlog, ← balance_append, ← balance_append]
        rfl
      rw [hbalance, show balance (closing (.ok loaded)) = 0 from rfl] at hwhole
      exact Int.ofNat_inj.1 (sub_eq_zero.1 hwhole).symm
    · rw [hreadings, hfiles]
  · rw [hlog, he, closing, List.append_nil] at hevent
    exact hfront event hevent

namespace Load

variable {source : Source}

/-- The log of a load is that of its expansion, and its end. -/
theorem log_root (root : FilePath) :
    (Load.root root : Load source _).toReport.log =
      (after (expandRoot root) (.start : Progress source)).log.toList ++
        Report.closing (outcome (Load.root root : Load source _)) := by
  rw [toReport_eq, Load.root, outcome, result_bind, after_bind]
  rcases result (expandRoot root) (.start : Progress source) with e | tree
  · exact (List.append_nil _).symm
  · dsimp only [Except.bind]
    rw [after_finish, result_finish, Array.toList_push, Array.toList_push, List.append_assoc]
    rfl

theorem truthful_root (root : FilePath) : (Load.root root : Load source _).toReport.Truthful ∧
    ∃ story, (Load.root root : Load source _).toReport.log =
      .loading root :: .reading root :: story := by
  obtain ⟨story, hlog, htold, hbalance⟩ := @told_expandRoot source root
  have hreport := @log_root source root
  rw [hlog, ← outcome_toReport] at hreport
  have hreads : (Load.root root : Load source _).toReport.reads = source.visited root := by
    rw [toReport_eq, visits_root]
  refine ⟨Report.truthful_of_told hreport (hreads ▸ htold) fun loaded hloaded => ?_, _, hreport⟩
  rw [outcome_toReport] at hloaded
  obtain ⟨members, tree, hholds, htree, rfl⟩ := outcome_root_eq_ok.1 hloaded
  exact ⟨hbalance tree (outcome_expandRoot_eq_ok.2 ⟨members, hholds, htree⟩), hreads.symm⟩

/-- **The report of a root file with a story**: what was told of the root file and its object stands
before the counts of the public paths and of the files. -/
theorem toReport_root_of_recounts {root : FilePath} {members : Members Document}
    {tree : Members (Bool × Marked)} {story : List Event} {later : List FilePath}
    (hholds : source.Holds root members)
    (h : Recounts (expandObject (.top root) members : Load source _) [root] tree story later) :
    (Load.root root : Load source _).toReport =
      ⟨.ok ⟨Marked.plainMembers tree, Marked.memberPaths tree, later⟩, later,
        .loading root :: .reading root :: (story ++
          [.extracted (Marked.memberPaths tree).length, .loaded later.length])⟩ := by
  have hexpand : Recounts (expandRoot root : Load source _) [] tree
      (.loading root :: .reading root :: story) later :=
    (recounts_emit _).bind ((recounts_fetchMembers hholds).bind h)
  obtain ⟨next, hnext, hcoherent, rfl, hlog⟩ := hexpand .start Progress.coherent_start rfl
  rw [toReport, EStateM.run, Load.root, bind_of_ok hnext,
    eq_ok_of_result (result_finish tree next), after_finish]
  simp [hlog, hcoherent.reads_eq, Progress.start]

end Load

/-- **The log of a load tells the truth**, for every file that it may start with, every directory
and every source of files. Where there is a root file, the log begins with it; its line about the
reading of the root file is the second one. -/
theorem load_log_truthful (env : Environment) (cwd path : String) :
    (load env cwd path).Truthful ∧
      ∀ dir, path ≠ "" → env.directory cwd = .ok dir → ∃ story,
        (load env cwd path).log =
          .loading (dir.resolve path) :: .reading (dir.resolve path) :: story := by
  -- without a root file, nothing is reported
  have hsilent (e : LoadError) : Report.Truthful ⟨.error e, [], []⟩ := by
    constructor <;> simp
  rw [load]
  split
  · exact ⟨hsilent _, fun _ hpath => absurd ‹_› hpath⟩
  · split
    · rename_i e he
      refine ⟨hsilent _, fun _ _ hdir => ?_⟩
      cases he.symm.trans hdir
    · rename_i dir hdir
      obtain ⟨htruthful, hbegins⟩ := @Load.truthful_root env.source (dir.resolve path)
      refine ⟨htruthful, fun dir' _ hdir' => ?_⟩
      obtain rfl : dir = dir' := Except.ok.inj (hdir.symm.trans hdir')
      exact hbegins

/-- What is told of files that include one another, once the root file was read. -/
def walkedStory : List Event :=
  let file := FilePath.root.resolve
  [.ignoredItem (file "a") .root .null, .includesFound (file "a") 1,
    .including (file "a") (file "c"), .reading (file "c"),
    .includesFound (file "c") 1, .including (file "c") (file "b"), .reading (file "b"),
    .includesFound (file "a") 1, .including (file "a") (file "b"), .cacheHit (file "b")]

namespace Load

/-- The story of an object that includes one file. -/
theorem recounts_includingObject {scope : Scope} {seen : List FilePath}
    (hfile : scope.target "b" = FilePath.root.resolve "b")
    (hnew : FilePath.root.resolve "b" ∉ scope.chain) :
    Recounts (expandObject scope includingObject : Load walkedFiles.source _) seen []
      [.includesFound scope.file 1, .including scope.file (FilePath.root.resolve "b"),
        .use seen (FilePath.root.resolve "b")]
      (Progress.visit seen (FilePath.root.resolve "b")) := by
  rw [← hfile] at hnew ⊢
  have hholds : walkedFiles.source.Holds (scope.target "b") [] := hfile ▸ walkedFiles_holds.2.1
  have hempty := recounts_object_of_included rfl rfl
    (recounts_noIncludes rfl : Recounts (expandIncluded (scope.enter (scope.target "b")) [] :
      Load walkedFiles.source _) (Progress.visit seen (scope.target "b")) [] [] _)
  have hincluded : Recounts (expandIncluded scope includingObject : Load walkedFiles.source _) seen
      [] (reported scope (.scalar (.string "b")) ++
        [.including scope.file (scope.target "b"), .use seen (scope.target "b")])
      (Progress.visit seen (scope.target "b")) :=
    recounts_included rfl (recounts_includes hnew hholds hempty recounts_endIncludes)
  exact recounts_object_of_included rfl rfl hincluded

/-- The root file includes another one, which includes a third. That one is in the cache when it is
included for the member. -/
theorem recounts_includingRoot :
    Recounts (expandObject (.top (FilePath.root.resolve "a")) includingRoot :
        Load walkedFiles.source _) [FilePath.root.resolve "a"] [("m", false, .object [])]
      walkedStory (["a", "c", "b"].map FilePath.root.resolve) := by
  let a := FilePath.root.resolve "a"
  let b := FilePath.root.resolve "b"
  let c := FilePath.root.resolve "c"
  have htarget : (Scope.top a).target "c" = c := by cbv
  have hholds : walkedFiles.source.Holds ((Scope.top a).target "c") includingObject :=
    htarget ▸ walkedFiles_holds.2.2
  -- the other file is new where it is included first, and known for the member
  have hfirst : Recounts (expandObject ((Scope.top a).enter ((Scope.top a).target "c"))
      includingObject : Load walkedFiles.source _) (Progress.visit [a] ((Scope.top a).target "c")) []
      [.includesFound c 1, .including c b, .reading b] [a, c, b] := by
    rw [htarget]
    exact recounts_includingObject (by cbv) (by decide)
  have hmember : Recounts (expandObject ((Scope.top a).member (Directive.name "m"))
      includingObject : Load walkedFiles.source _) [a, c, b] []
      [.includesFound a 1, .including a b, .cacheHit b] [a, c, b] :=
    recounts_includingObject (by cbv) (by decide)
  have hincluded : Recounts (expandIncluded (.top a) includingRoot : Load walkedFiles.source _) [a]
      [] (reported (.top a) (.array [.scalar (.string "c"), .scalar .null]) ++
        [.including a c, .reading c, .includesFound c 1, .including c b, .reading b])
      [a, c, b] :=
    recounts_included rfl (recounts_includes (by decide) hholds hfirst recounts_endIncludes)
  have hown : Recounts (expandMembers (.top a) [] (Directive.ordinary includingRoot) :
      Load walkedFiles.source _) [a, c, b] [("m", false, .object [])]
      [.includesFound a 1, .including a b, .cacheHit b] [a, c, b] := by
    have hordinary : Directive.ordinary includingRoot = [("m", .object includingObject)] := by
      decide
    rw [hordinary]
    exact recounts_members List.not_mem_nil (recounts_expand_object hmember) recounts_endMembers
  exact recounts_object hincluded (recounts_noBlock rfl) hown

end Load

/-- The log of a load of files that include one another: three files are read, one of them is used a
second time, and as many files were entered as were announced. -/
theorem log_of_walkedFiles :
    ∃ loaded, (load walkedFiles.environment "/" "a").outcome = .ok loaded ∧
      (load walkedFiles.environment "/" "a").log =
        .loading (FilePath.root.resolve "a") :: .reading (FilePath.root.resolve "a") ::
          (walkedStory ++ [.extracted 0, .loaded 3]) ∧
      (∃ front, (load walkedFiles.environment "/" "a").log =
        front ++ [.extracted loaded.publicPaths.length, .loaded loaded.files.length]) ∧
      ((load walkedFiles.environment "/" "a").log.map Event.announced).sum =
        (load walkedFiles.environment "/" "a").log.countP Event.isIncluding := by
  have hdir : walkedFiles.environment.directory "/" = .ok .root := by cbv
  have hload : load walkedFiles.environment "/" "a" =
      (Load.root (FilePath.root.resolve "a") : Load walkedFiles.source _).toReport := by
    rw [load, if_neg (by decide), hdir]
    rfl
  have hreport := hload.trans
    (Load.toReport_root_of_recounts walkedFiles_holds.1 Load.recounts_includingRoot)
  obtain ⟨htruthful, -⟩ := load_log_truthful walkedFiles.environment "/" "a"
  have houtcome := congrArg Report.outcome hreport
  obtain ⟨hcounts, ⟨front, hends, -⟩, -⟩ := htruthful.success _ houtcome
  exact ⟨_, houtcome, congrArg Report.log hreport, ⟨front, hends⟩, hcounts⟩

end ConfigTree
