import ConfigTree.Proofs.Merge
import ConfigTree.Proofs.Reads
import Mathlib

/-!
# Stories

What an expansion adds to the log of a load is a story: remarks on include members, and inclusions.
An inclusion is the line that a file is included, and right after it the line with which that file is
used. A file that was asked for before is in the cache, and the line says so; any other is read
(`ConfigTree.Event.use`). So a story depends on the files that were asked for before it, and tells
which files are asked for then (`ConfigTree.Told`).

To tell a story is a property of computations which is kept in sequence
(`ConfigTree.Load.Narrates`), and so it holds of expansions. It comes with a balance: a computation
that does not fail enters as many files as it has announced. When an expansion succeeds, the files
that were asked for before it settle its story (`ConfigTree.Load.exists_recounts`), which is put
together from those of the files that an object includes, of its public block and of its members
(`ConfigTree.Load.recounts_object`).
-/

namespace ConfigTree

/-! ### Lines of a log -/

namespace Event

/-- The file that a line says is about to be read. -/
def read? : Event → Option FilePath
  | .reading path => some path
  | _ => none

/-- **A line about the use of a file**: it is about to be read, or it was read before. -/
def Uses (event : Event) (path : FilePath) : Prop :=
  event = .reading path ∨ event = .cacheHit path

/-- The number of files that a line announces. -/
def announced : Event → ℕ
  | .includesFound _ count => count
  | _ => 0

/-- Whether a line says that a file is included. -/
def isIncluding : Event → Bool
  | .including _ _ => true
  | _ => false

/-- Whether a line belongs to the end of a load. -/
def isClosing : Event → Bool
  | .extracted _ | .loaded _ => true
  | _ => false

/-- Whether a line is a remark on an include member. -/
def isRemark : Event → Bool
  | .ignoredItem _ _ _ | .ignoredInclude _ _ _ | .includesFound _ _ => true
  | _ => false

/-- **The line with which a file is used**, when these were asked for before. -/
def use (seen : List FilePath) (path : FilePath) : Event :=
  if path ∈ seen then .cacheHit path else .reading path

variable {event : Event} {seen : List FilePath} {path other : FilePath}

theorem uses_use : (use seen path).Uses path := by
  unfold use
  split
  · exact Or.inr rfl
  · exact Or.inl rfl

theorem Uses.unique (h : event.Uses path) (h' : event.Uses other) : path = other := by
  rcases h with rfl | rfl
  · rcases h' with h' | h'
    · exact Event.reading.inj h'
    · nomatch h'
  · rcases h' with h' | h'
    · nomatch h'
    · exact Event.cacheHit.inj h'

theorem uses_use_iff : (use seen path).Uses other ↔ other = path :=
  ⟨fun h => h.unique uses_use, fun h => h ▸ uses_use⟩

theorem not_isRemark_of_uses (h : event.Uses path) : event.isRemark = false := by
  rcases h with rfl | rfl <;> rfl

theorem not_uses_of_isRemark (h : event.isRemark = true) (path : FilePath) : ¬event.Uses path :=
  fun huses => nomatch h.symm.trans (not_isRemark_of_uses huses)

theorem not_uses_including (file target path : FilePath) :
    ¬(Event.including file target).Uses path := by
  rintro (h | h) <;> nomatch h

theorem not_isClosing_use : (use seen path).isClosing = false := by
  unfold use
  split <;> rfl

theorem use_eq_reading_iff : use seen path = .reading path ↔ path ∉ seen := by
  unfold use
  split <;> simp [*]

/-- With its use, a file is added to those that are asked for exactly when it is read. -/
theorem visit_eq_append (seen : List FilePath) (path : FilePath) :
    Progress.visit seen path = seen ++ [use seen path].filterMap read? := by
  unfold Progress.visit use
  split <;> simp [read?]

end Event

/-! ### Stories -/

/-- **What can be told of an expansion**, when some files were asked for before it, and the files
that were asked for then: remarks, and inclusions, each with the use of the file. -/
inductive Told : List FilePath → List Event → List FilePath → Prop
  | nil (seen : List FilePath) : Told seen [] seen
  | remark {seen later : List FilePath} {event : Event} {story : List Event} :
      event.isRemark = true → Told seen story later → Told seen (event :: story) later
  | inclusion {seen later : List FilePath} (file path : FilePath) {story : List Event} :
      Told (Progress.visit seen path) story later →
      Told seen (.including file path :: .use seen path :: story) later

/-- The files that are entered in a story, less those that are announced in it. -/
def balance (story : List Event) : ℤ :=
  (story.countP Event.isIncluding : ℤ) - ((story.map Event.announced).sum : ℤ)

theorem balance_append (story more : List Event) :
    balance (story ++ more) = balance story + balance more := by
  simp only [balance, List.countP_append, List.map_append, List.sum_append]
  omega

namespace Told

variable {seen mid later : List FilePath} {story more before rest tail : List Event} {event : Event}
  {path : FilePath}

theorem append (h : Told seen story mid) (hmore : Told mid more later) :
    Told seen (story ++ more) later := by
  induction h with
  | nil seen => exact hmore
  | remark hremark _ ih => exact .remark hremark (ih hmore)
  | inclusion file path _ ih => exact .inclusion file path (ih hmore)

theorem of_remarks (h : ∀ event ∈ story, event.isRemark = true) (seen : List FilePath) :
    Told seen story seen := by
  induction story with
  | nil => exact .nil seen
  | cons event story ih =>
    obtain ⟨hevent, hstory⟩ := List.forall_mem_cons.1 h
    exact .remark hevent (ih hstory)

/-- **The files that are asked for** are those that were asked for before, and then those that the
story says are read. -/
theorem later_eq (h : Told seen story later) : later = seen ++ story.filterMap Event.read? := by
  induction h with
  | nil seen => simp
  | @remark seen later event story hremark _ ih =>
    have hread : event.read? = none := by cases event <;> first | rfl | nomatch hremark
    rw [ih, List.filterMap_cons_none hread]
  | @inclusion seen later file path story _ ih =>
    rw [ih, Event.visit_eq_append, List.append_assoc, ← List.filterMap_append,
      List.filterMap_cons_none rfl]
    rfl

/-- A file was asked for in the end if it was before, or if the story has a line about its use. -/
theorem mem_later_iff (h : Told seen story later) :
    path ∈ later ↔ path ∈ seen ∨ ∃ event ∈ story, event.Uses path := by
  induction h with
  | nil seen => simp
  | remark hremark _ ih =>
    rw [ih, List.exists_mem_cons_iff, or_iff_right (Event.not_uses_of_isRemark hremark path)]
  | inclusion file target _ ih =>
    rw [ih, List.exists_mem_cons_iff, List.exists_mem_cons_iff,
      or_iff_right (Event.not_uses_including file target path), Event.uses_use_iff,
      Progress.mem_visit, or_assoc]

theorem not_isClosing (h : Told seen story later) :
    ∀ event ∈ story, event.isClosing = false := by
  induction h with
  | nil seen => simp
  | @remark _ _ event _ hremark _ ih =>
    refine List.forall_mem_cons.2 ⟨?_, ih⟩
    cases event <;> first | rfl | nomatch hremark
  | inclusion file path _ ih =>
    exact List.forall_mem_cons.2 ⟨rfl, List.forall_mem_cons.2 ⟨Event.not_isClosing_use, ih⟩⟩

/-- **A story cut in front of a line** that is no remark: either an inclusion begins there, and the
use of the file follows, or this is the use of a file whose inclusion has just been reported. What
comes before tells which files were asked for until then. -/
theorem cut (h : Told seen story later) (hstory : story ++ tail = before ++ event :: rest)
    (htail : event ∉ tail) (hevent : event.isRemark = false) :
    (∃ (mid : List FilePath) (file path : FilePath) (more : List Event),
      Told seen before mid ∧ event = .including file path ∧ rest = .use mid path :: more) ∨
    ∃ (mid : List FilePath) (file path : FilePath) (front : List Event),
      Told seen front mid ∧ before = front ++ [.including file path] ∧ event = .use mid path := by
  induction h generalizing before with
  | nil seen =>
    rw [List.nil_append] at hstory
    exact absurd (hstory ▸ by simp) htail
  | @remark seen later line story hremark _ ih =>
    rcases before with _ | ⟨first, before⟩
    · obtain ⟨rfl, -⟩ := List.cons.inj hstory
      nomatch hremark.symm.trans hevent
    · obtain ⟨rfl, hrest⟩ := List.cons.inj hstory
      obtain ⟨mid, file, path, more, htold, h⟩ | ⟨mid, file, path, front, htold, rfl, h⟩ := ih hrest
      · exact Or.inl ⟨mid, file, path, more, .remark hremark htold, h⟩
      · exact Or.inr ⟨mid, file, path, line :: front, .remark hremark htold, rfl, h⟩
  | @inclusion seen later file path story _ ih =>
    -- the cut is in front of the inclusion, between it and the use of the file, or later
    rcases before with _ | ⟨first, _ | ⟨second, before⟩⟩
    · obtain ⟨rfl, rfl⟩ := List.cons.inj hstory
      exact Or.inl ⟨seen, file, path, _, .nil seen, rfl, rfl⟩
    · obtain ⟨rfl, hrest⟩ := List.cons.inj hstory
      exact Or.inr ⟨seen, file, path, [], .nil seen, rfl, (List.cons.inj hrest).1.symm⟩
    · simp only [List.cons_append, List.cons.injEq] at hstory
      obtain ⟨rfl, rfl, hrest⟩ := hstory
      obtain ⟨mid, _, _, more, htold, h⟩ | ⟨mid, _, _, front, htold, rfl, h⟩ := ih hrest
      · exact Or.inl ⟨mid, _, _, more, .inclusion file path htold, h⟩
      · exact Or.inr ⟨mid, _, _, _ :: _ :: front, .inclusion file path htold, rfl, h⟩

end Told

/-! ### Computations that report what they do -/

namespace Load

variable {source : Source} {α β : Type} {due : ℤ}

/-- **Computations that report what they do.** What they add to the log can be told from the files
that were asked for before, and tells which files have been asked for then. If they do not fail,
they enter as many files as they announce, and those that were due. -/
structure Narrates (due : ℤ) (load : Load source α) : Prop where
  steady : Steady load
  told : ∀ progress, progress.Coherent → ∃ story,
    (after load progress).log = progress.log ++ story.toArray ∧
    Told progress.reads story (after load progress).reads ∧
    ∀ a, result load progress = .ok a → balance story = due

theorem narrates_pure (a : α) : Narrates 0 (pure a : Load source α) where
  steady := steady_pure a
  told progress _ := ⟨[], by simp, .nil _, fun _ _ => rfl⟩

theorem narrates_throw (e : LoadError) : Narrates due (throw e : Load source α) where
  steady := steady_throw e
  told progress _ := ⟨[], by simp, .nil _, fun _ h => nomatch h⟩

/-- **Computations in sequence** report what they do, one after the other. -/
theorem Narrates.bind {due' : ℤ} {load : Load source α} {next : α → Load source β}
    (hload : Narrates due load) (hnext : ∀ a, Narrates due' (next a)) :
    Narrates (due + due') (load >>= next) where
  steady := hload.steady.bind fun a => (hnext a).steady
  told progress hcoherent := by
    obtain ⟨story, hlog, htold, hbalance⟩ := hload.told progress hcoherent
    rw [after_bind, result_bind]
    rcases h : result load progress with e | a
    · exact ⟨story, hlog, htold, fun _ he => nomatch he⟩
    · obtain ⟨more, hmore, htoldMore, hbalanceMore⟩ :=
        (hnext a).told _ (hload.steady.coherent progress hcoherent a h)
      refine ⟨story ++ more, ?_, htold.append htoldMore, fun b hb => ?_⟩
      · exact hmore.trans (by simp [hlog])
      · rw [balance_append, hbalance a h, hbalanceMore b hb]

/-- The line with which a file is used is the one that is reported when it is fetched. -/
theorem log_fetch {progress : Progress source} (h : progress.Coherent) (path : FilePath) :
    (after (fetch path) progress).log = progress.log.push (.use progress.reads path) := by
  by_cases hpath : path ∈ progress.reads
  · have hcached : progress.cached? path ≠ none := fun hc => h.cached?_eq_none_iff.1 hc hpath
    obtain ⟨found, hfound⟩ := Option.ne_none_iff_exists'.1 hcached
    rw [after, fetch_of_cached hfound, Event.use, if_pos hpath]
    rfl
  · rw [after, fetch_of_not_cached (h.cached?_eq_none_iff.2 hpath), read, Event.use, if_neg hpath]
    rcases ha : source.answer path 0 with e | text
    · rw [bind_of_error (ask_of_error hpath ha)]
    · obtain ⟨hreadable, hask⟩ := ask_of_ok hpath ha
      rw [bind_of_ok hask]
      rcases Document.parse text with e | d <;> rfl

theorem log_fetchMembers {progress : Progress source} (h : progress.Coherent) (path : FilePath) :
    (after (fetchMembers path) progress).log = progress.log.push (.use progress.reads path) := by
  rw [fetchMembers_eq, after_bind, ← log_fetch h path]
  rcases result (fetch path) progress with e | ⟨_ | _ | _, _⟩ <;> rfl

/-- **An inclusion is reported**, and then the use of the file. -/
theorem narrates_inclusion (file path : FilePath) :
    Narrates 1 (emit (.including file path) >>= fun _ => fetchMembers path : Load source _) where
  steady := (steady_emit _).bind fun _ => steady_fetchMembers path
  told progress hcoherent := by
    refine ⟨[.including file path, .use progress.reads path], ?_, ?_, fun _ _ => ?_⟩
    · rw [after_bind, result_emit, after_emit]
      dsimp only
      rw [log_fetchMembers (hcoherent.log _), ← Array.toList_inj]
      simp
    · rw [after_bind, result_emit, after_emit]
      dsimp only
      rw [reads_fetchMembers (hcoherent.log _)]
      exact .inclusion file path (.nil _)
    · unfold Event.use
      split <;> rfl

/-- An include member announces the files that it names. -/
theorem narrates_reportIncludes (scope : Scope) (value : Document) :
    Narrates (-(Directive.includedTexts value).length)
      (reportIncludes scope value : Load source _) where
  steady := steady_reportIncludes scope value
  told progress _ := by
    have hremarks : ∀ event ∈ reported scope value, event.isRemark = true := by
      simp only [reported, List.mem_append, List.mem_map, List.mem_singleton]
      rintro event ((⟨item, -, rfl⟩ | h) | rfl)
      · rfl
      · split at h
        · rw [List.mem_singleton.1 h]
          rfl
        · cases h
      · rfl
    have hbalance : balance (reported scope value) = -(Directive.includedTexts value).length := by
      cases h : Directive.isUnsupported value <;>
        simp [balance, reported, h, Event.announced, Event.isIncluding, Function.comp_def,
          List.countP_map]
    rw [after, result, reportIncludes_eq]
    exact ⟨reported scope value, rfl, .of_remarks hremarks _, fun _ _ => hbalance⟩

/-- **Every expansion reports what it does.** -/
theorem counting_narrates :
    Counting fun _ due α (load : Load source α) => Narrates (due : ℤ) load where
  pure _ _ a := narrates_pure a
  throw _ _ _ e _ := narrates_throw e
  bind _ _ _ _ _ hload hnext := hload.bind hnext
  announce scope value _ _ hnext := by
    have h := (narrates_reportIncludes scope value).bind fun _ => hnext
    rwa [neg_add_cancel] at h
  enter scope due _ _ path inner next hinner hnext := by
    have h := (narrates_inclusion scope.file path).bind fun file => (hinner file).bind hnext
    have hdue : (1 : ℤ) + ((0 : ℕ) + due) = (due + 1 : ℕ) := by omega
    rwa [bind_assoc, hdue] at h

theorem narrates_expandObject (scope : Scope) (members : Members Document) :
    Narrates 0 (expandObject scope members : Load source _) :=
  counting_narrates.expansion.1 scope members

/-- The log of the expansion of a root file: the root file is read, and what is expanded of it is
told. -/
theorem told_expandRoot (root : FilePath) : ∃ story,
    (after (expandRoot root) (.start : Progress source)).log.toList =
      .loading root :: .reading root :: story ∧
    Told [root] story (source.visited root) ∧
    ∀ tree, outcome (expandRoot root : Load source _) = .ok tree → balance story = 0 := by
  have hstart : (after (emit (.loading root)) (.start : Progress source)).Coherent :=
    Progress.coherent_start.log _
  have hlog := log_fetchMembers hstart root
  have hreads := reads_fetchMembers hstart root
  rw [Source.visited, visits, outcome, expandRoot, after_bind, result_bind, result_emit]
  dsimp only [Except.bind]
  rw [after_bind, result_bind]
  rcases h : result (fetchMembers root) (after (emit (.loading root)) (.start : Progress source))
    with e | file
  · refine ⟨[], ?_, ?_, fun _ he => ?_⟩
    · dsimp only
      rw [hlog]
      rfl
    · dsimp only
      rw [hreads]
      exact .nil _
    · cases he
  · obtain ⟨story, hstory, htold, hbalance⟩ := (narrates_expandObject (.top root) file.value).told _
      ((steady_fetchMembers root).coherent _ hstart file h)
    refine ⟨story, ?_, ?_, hbalance⟩
    · dsimp only
      rw [hstory, hlog, Array.toList_append, Array.toList_push]
      rfl
    · rw [hreads] at htold
      exact htold

/-! ### The story of a run that succeeds -/

/-- **A computation that succeeds and tells this story**, when these files were asked for before. It
gives a value, and leaves coherent progress with the files that have been asked for then. -/
def Recounts (load : Load source α) (seen : List FilePath) (a : α) (story : List Event)
    (later : List FilePath) : Prop :=
  ∀ progress, progress.Coherent → progress.reads = seen → ∃ next,
    load progress = .ok a next ∧ next.Coherent ∧ next.reads = later ∧
      next.log = progress.log ++ story.toArray

section Recounts

variable {scope : Scope} {members contents : Members Document} {path : FilePath} {key text : String}
  {value : Document} {rest : Members Document} {texts taken : List String} {node : Marked}
  {merged tree block own others : Members (Bool × Marked)} {seen mid entered later : List FilePath}
  {story more middle : List Event}

theorem recounts_pure (a : α) : Recounts (pure a : Load source α) seen a [] seen :=
  fun progress hcoherent hreads => ⟨progress, rfl, hcoherent, hreads, by simp⟩

/-- **Stories are told one after the other.** -/
theorem Recounts.bind {load : Load source α} {next : α → Load source β} {a : α} {b : β}
    (hload : Recounts load seen a story mid) (hnext : Recounts (next a) mid b more later) :
    Recounts (load >>= next) seen b (story ++ more) later := by
  intro progress hcoherent hreads
  obtain ⟨between, hbetween, hcoherent, hreads, hlog⟩ := hload progress hcoherent hreads
  obtain ⟨last, hlast, hcoherent, hreads, hmore⟩ := hnext between hcoherent hreads
  exact ⟨last, (bind_of_ok hbetween).trans hlast, hcoherent, hreads, by simp [hmore, hlog]⟩

/-- What comes to its value in the end tells nothing more. -/
theorem Recounts.map {load : Load source α} {f : α → β} {a : α}
    (hload : Recounts load seen a story later) :
    Recounts (load >>= fun a => pure (f a)) seen (f a) story later := by
  intro progress hcoherent hreads
  obtain ⟨next, hnext, h⟩ := hload progress hcoherent hreads
  exact ⟨next, bind_of_ok hnext, h⟩

theorem recounts_emit (event : Event) :
    Recounts (emit event : Load source Unit) seen () [event] seen :=
  fun _ hcoherent hreads => ⟨_, emit_eq _ _, hcoherent.log _, hreads, by simp⟩

theorem recounts_reportIncludes (scope : Scope) (value : Document) :
    Recounts (reportIncludes scope value : Load source Unit) seen () (reported scope value) seen :=
  fun _ hcoherent hreads => ⟨_, reportIncludes_eq _ _ _, hcoherent.log _, hreads, rfl⟩

/-- A file that holds an object is used. -/
theorem recounts_fetchMembers (h : source.Holds path members) :
    Recounts (fetchMembers path) seen ⟨members, h.readable⟩ [.use seen path]
      (Progress.visit seen path) := by
  rintro progress hcoherent rfl
  have hresult : result (fetchMembers path) progress = .ok ⟨members, h.readable⟩ :=
    ((steady_fetchMembers path).result_eq progress hcoherent).trans
      (outcome_fetchMembers_eq_ok.2 h)
  refine ⟨_, eq_ok_of_result hresult,
    (steady_fetchMembers path).coherent progress hcoherent _ hresult,
    reads_fetchMembers hcoherent path, ?_⟩
  rw [log_fetchMembers hcoherent, ← Array.toList_inj]
  simp

/-- **Computations with a story**: when they succeed, what they tell is settled by the files that
were asked for before. -/
structure Storied (load : Load source α) : Prop where
  steady : Steady load
  story : ∀ (seen : List FilePath) (a : α), outcome load = .ok a →
    ∃ story later, Recounts load seen a story later

theorem storied_throw (e : LoadError) : Storied (throw e : Load source α) where
  steady := steady_throw e
  story _ _ h := nomatch h

theorem storied_of_recounts {load : Load source Unit} {story : List Event} (hsteady : Steady load)
    (h : ∀ seen, Recounts load seen () story seen) : Storied load where
  steady := hsteady
  story seen _ _ := ⟨story, seen, h seen⟩

theorem storied_fetchMembers (path : FilePath) : Storied (fetchMembers path : Load source _) where
  steady := steady_fetchMembers path
  story _ _ h := ⟨_, _, recounts_fetchMembers (outcome_fetchMembers_eq_ok.1 h)⟩

theorem Storied.bind {load : Load source α} {next : α → Load source β} (hload : Storied load)
    (hnext : ∀ a, Storied (next a)) : Storied (load >>= next) where
  steady := hload.steady.bind fun a => (hnext a).steady
  story seen b h := by
    obtain ⟨a, ha, hb⟩ := (outcome_bind_eq_ok hload.steady fun a => (hnext a).steady).1 h
    obtain ⟨story, mid, hstory⟩ := hload.story seen a ha
    obtain ⟨more, later, hmore⟩ := (hnext a).story mid b hb
    exact ⟨story ++ more, later, hstory.bind hmore⟩

theorem counting_storied : Counting fun _ _ α (load : Load source α) => Storied load where
  pure _ _ a := ⟨steady_pure a, fun seen _ h => ⟨[], seen, Except.ok.inj h ▸ recounts_pure a⟩⟩
  throw _ _ _ e _ := storied_throw e
  bind _ _ _ _ _ hload hnext := hload.bind hnext
  announce scope value _ _ hnext :=
    (storied_of_recounts (steady_reportIncludes scope value) fun _ =>
      recounts_reportIncludes scope value).bind fun _ => hnext
  enter _ _ _ _ path _ _ hinner hnext :=
    (storied_of_recounts (steady_emit _) fun _ => recounts_emit _).bind fun _ =>
      (storied_fetchMembers path).bind fun file => (hinner file).bind hnext

/-- **A successful expansion has a story**, which is settled by the files that were asked for before
it. It does not matter what the log says already. -/
theorem exists_recounts (h : source.objectTree scope members = .ok tree) (seen : List FilePath) :
    ∃ story later, Recounts (expandObject scope members : Load source _) seen tree story later :=
  (counting_storied.expansion.1 scope members).story seen tree h

/-! ### The story of an object -/

theorem recounts_noIncludes (h : members.get? Directive.includeKey = none) :
    Recounts (expandIncluded scope members : Load source _) seen [] [] seen := by
  rw [expandIncluded, h]
  exact recounts_pure []

/-- The files that an object includes are announced, and then their stories are told. -/
theorem recounts_included (h : members.get? Directive.includeKey = some value)
    (hincludes : Recounts (expandIncludes scope (Directive.includedTexts value) [] : Load source _)
      seen tree story later) :
    Recounts (expandIncluded scope members : Load source _) seen tree
      (reported scope value ++ story) later := by
  rw [expandIncluded, h]
  exact (recounts_reportIncludes scope value).bind hincludes

theorem recounts_endIncludes :
    Recounts (expandIncludes scope [] merged : Load source _) seen merged [] seen := by
  rw [expandIncludes]
  exact recounts_pure merged

/-- **The story of a list of files**: the first one is included and used, and its own story is told
before those of the others. -/
theorem recounts_includes (hnew : scope.target text ∉ scope.chain)
    (hholds : source.Holds (scope.target text) contents)
    (htree : Recounts (expandObject (scope.enter (scope.target text)) contents : Load source _)
      (Progress.visit seen (scope.target text)) tree story mid)
    (hrest : Recounts (expandIncludes scope texts (Marked.mergeMembers merged tree) :
      Load source _) mid block more later) :
    Recounts (expandIncludes scope (text :: texts) merged : Load source _) seen block
      (.including scope.file (scope.target text) :: .use seen (scope.target text) ::
        (story ++ more)) later := by
  rw [expandIncludes, dif_neg hnew]
  exact (recounts_emit _).bind ((recounts_fetchMembers hholds).bind (htree.bind hrest))

theorem recounts_noBlock (h : members.get? Directive.publicKey = none) :
    Recounts (expandBlock scope members : Load source _) seen [] [] seen := by
  rw [expandBlock, h]
  exact recounts_pure []

theorem recounts_endMembers :
    Recounts (expandMembers scope taken [] : Load source _) seen [] [] seen := by
  rw [expandMembers]
  exact recounts_pure []

theorem recounts_members (hname : Directive.name key ∉ taken)
    (hnode : Recounts (expand (scope.member (Directive.name key)) value : Load source _) seen node
      story mid)
    (hrest : Recounts (expandMembers scope (Directive.name key :: taken) rest : Load source _) mid
      others more later) :
    Recounts (expandMembers scope taken ((key, value) :: rest) : Load source _) seen
      ((Directive.name key, Directive.isMarked key || scope.isPublic, node) :: others)
      (story ++ more) later := by
  rw [expandMembers_cons, if_neg hname]
  exact hnode.bind hrest.map

/-- **The story of an object** is that of the files that it includes, then that of its public block,
and last that of its members. -/
theorem recounts_object
    (hincluded : Recounts (expandIncluded scope members : Load source _) seen merged story mid)
    (hblock : Recounts (expandBlock scope members : Load source _) mid block middle entered)
    (hown : Recounts (expandMembers scope [] (Directive.ordinary members) : Load source _) entered
      own more later) :
    Recounts (expandObject scope members : Load source _) seen
      (Marked.mergeMembers (Marked.mergeMembers merged block) own) (story ++ (middle ++ more))
      later := by
  rw [expandObject_eq]
  exact hincluded.bind (hblock.bind hown.map)

/-- An object with nothing but files to include tells their story. -/
theorem recounts_object_of_included (hblock : members.get? Directive.publicKey = none)
    (hown : Directive.ordinary members = [])
    (hincluded : Recounts (expandIncluded scope members : Load source _) seen merged story later) :
    Recounts (expandObject scope members : Load source _) seen merged story later := by
  have hmembers : Recounts (expandMembers scope [] (Directive.ordinary members) : Load source _)
      later [] [] later := by
    rw [hown]
    exact recounts_endMembers
  have h := recounts_object hincluded (recounts_noBlock hblock) hmembers
  rwa [Marked.mergeMembers_nil_right, Marked.mergeMembers_nil_right, List.append_nil,
    List.append_nil] at h

theorem recounts_expand_object
    (h : Recounts (expandObject scope members : Load source _) seen tree story later) :
    Recounts (expand scope (.object members) : Load source _) seen (.object tree) story later := by
  rw [expand]
  exact h.map

end Recounts

end Load

end ConfigTree
