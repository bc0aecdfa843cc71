import ConfigTree.Proofs.Outcome

/-!
# What a load has read

A load asks for no path twice, and a successful one asks for exactly the files of its
configuration. A load that fails has failed at its last read or after it: every earlier read gave
an object. The file that its error names was asked for, and so was every file of the chain of a
cycle (`ConfigTree.load_accounted`).

The second half is a property of computations that is kept in sequence
(`ConfigTree.Load.Orderly`). Sound progress is what it starts from: there, everything that was
asked for holds an object.
-/

namespace ConfigTree

variable {source : Source}

/-! ### Files that cannot be used -/

/-- The file that an error names, if it names one. -/
def LoadError.file? : LoadError → Option FilePath
  | .readFailed path _ | .parseFailed path _ | .invalidRoot path | .cycle path _ => some path
  | .invalidPublicBlock file _ | .keyCollision file _ _ => some file
  | .missingPath | .unusableDirectory _ _ => none

/-- **What can be wrong with a single file**: its read fails, its text is no document, or its
document is no object. -/
inductive Source.Unusable (source : Source) (path : FilePath) : LoadError → Prop
  | unread {cause : ReadError} : source.answer path 0 = .error cause →
      Unusable source path (.readFailed path cause)
  | unparsed {text : String} {cause : SyntaxError} : source.answer path 0 = .ok text →
      Document.parse text = .error cause → Unusable source path (.parseFailed path cause)
  | noObject {d : Document} : source.document path = .ok d → (∀ members, d ≠ .object members) →
      Unusable source path (.invalidRoot path)

namespace Source

theorem unusable_of_contents {path : FilePath} {e : LoadError}
    (h : source.contents path = .error e) : source.Unusable path e := by
  rw [contents] at h
  rcases hd : source.document path with e' | d
  · rw [hd] at h
    obtain rfl : e' = e := Except.error.inj h
    rw [document] at hd
    rcases ha : source.answer path 0 with cause | text
    · rw [ha] at hd
      exact Except.error.inj hd ▸ .unread ha
    · simp only [ha] at hd
      rcases hp : Document.parse text with cause | d
      · rw [hp] at hd
        exact Except.error.inj hd ▸ .unparsed ha hp
      · rw [hp] at hd
        cases hd
  · rcases d with _ | _ | members <;> simp only [hd, Except.error.injEq, reduceCtorEq] at h
    · exact h ▸ .noObject hd (by simp)
    · exact h ▸ .noObject hd (by simp)

theorem Unusable.file?_eq {path : FilePath} {e : LoadError} (h : source.Unusable path e) :
    e.file? = some path := by
  cases h <;> rfl

/-- A file that cannot be used holds no object. -/
theorem Unusable.not_holds {path : FilePath} {e : LoadError} (h : source.Unusable path e)
    (members : Members Document) : ¬source.Holds path members := by
  rintro ⟨text, htext, hparse⟩
  cases h with
  | unread ha => nomatch ha.symm.trans htext
  | unparsed ha hp =>
    obtain rfl := Except.ok.inj (ha.symm.trans htext)
    nomatch hp.symm.trans hparse
  | noObject hd hobject =>
    have hmembers := document_eq_ok_iff.2 ⟨text, htext, hparse⟩
    exact hobject members (Except.ok.inj (hd.symm.trans hmembers))

/-- What is wrong with a single file is never a cycle. -/
theorem contents_ne_cycle (path again : FilePath) (stack : List FilePath) :
    source.contents path ≠ .error (.cycle again stack) := fun h =>
  nomatch unusable_of_contents h

end Source

namespace Progress

/-- **Sound progress**: it is coherent, and everything that was asked for holds an object. -/
structure Sound (progress : Progress source) : Prop extends progress.Coherent where
  holds : ∀ path ∈ progress.reads, ∃ members, source.Holds path members

theorem sound_start : (start : Progress source).Sound :=
  ⟨coherent_start, by simp [start]⟩

theorem Sound.log {progress : Progress source} (h : progress.Sound) (log : Array Event) :
    ({ progress with log := log } : Progress source).Sound :=
  ⟨h.toCoherent.log log, h.holds⟩

theorem dropLast_visit_subset (seen : List FilePath) (path : FilePath) :
    (visit seen path).dropLast ⊆ seen := by
  unfold visit
  split
  · exact List.dropLast_subset seen
  · rw [List.dropLast_concat]
    exact List.Subset.refl seen

end Progress

namespace Load

variable {α β : Type} {chain : List FilePath}

/-- Fetching the members of a file visits that file only. -/
theorem reads_fetchMembers {progress : Progress source} (h : progress.Coherent) (path : FilePath) :
    (after (fetchMembers path) progress).reads = Progress.visit progress.reads path := by
  rw [fetchMembers_eq, after_bind, ← (fetch_spec h path).2.1]
  rcases result (fetch path) progress with e | ⟨_ | _ | _, _⟩ <;> rfl

/-- **Orderly computations** with a chain of files that were read before. They add files that hold
objects; when they fail, that is true of everything that was asked for but the last. The file that
their error names was asked for, and so was the chain that they report in a cycle. -/
structure Orderly (chain : List FilePath) (load : Load source α) : Prop where
  steady : Steady load
  sound : ∀ progress, progress.Sound → ∀ a, result load progress = .ok a →
    (after load progress).Sound
  held : ∀ progress, progress.Sound → ∀ e, result load progress = .error e →
    ∀ path ∈ (after load progress).reads.dropLast, ∃ members, source.Holds path members
  asked : ∀ progress, progress.Sound → chain ⊆ progress.reads → ∀ e file,
    result load progress = .error e → e.file? = some file → file ∈ (after load progress).reads
  cycle : ∀ progress, progress.Sound → chain ⊆ progress.reads → ∀ again stack,
    result load progress = .error (.cycle again stack) →
      stack ⊆ (after load progress).reads ∧ again ∈ stack

/-- A computation that only reports is orderly. -/
theorem orderly_of_log {load : Load source Unit} (log : Array Event → Array Event)
    (h : ∀ progress, load progress = .ok () { progress with log := log progress.log }) :
    Orderly chain load := by
  have hresult (progress : Progress source) (e : LoadError) : result load progress ≠ .error e := by
    rw [result, h]
    simp
  refine ⟨steady_of_log log h, fun progress hsound _ _ => ?_, fun _ _ e he => ?_,
    fun _ _ _ e _ he => ?_, fun _ _ _ _ _ he => ?_⟩
  · rw [after, h]
    exact hsound.log _
  · exact absurd he (hresult _ e)
  · exact absurd he (hresult _ e)
  · exact absurd he (hresult _ _)

theorem orderly_pure (a : α) : Orderly chain (pure a : Load source α) where
  steady := steady_pure a
  sound _ hsound _ _ := hsound
  held _ _ _ he := nomatch he
  asked _ _ _ _ _ he := nomatch he
  cycle _ _ _ _ _ he := nomatch he

/-- An error names a file of the chain. -/
theorem Raised.file_mem {e : LoadError} (h : Raised chain e) {file : FilePath}
    (hfile : e.file? = some file) : file ∈ chain := by
  cases h <;> cases hfile <;> assumption

theorem orderly_throw {e : LoadError} (h : Raised chain e) :
    Orderly chain (throw e : Load source α) where
  steady := steady_throw e
  sound _ hsound _ _ := hsound
  held _ hsound _ _ path hpath := hsound.holds path (List.dropLast_subset _ hpath)
  asked _ _ hchain e' file he hfile := by
    obtain rfl : e = e' := Except.error.inj he
    exact hchain (h.file_mem hfile)
  cycle _ _ hchain again stack he := by
    obtain rfl : e = .cycle again stack := Except.error.inj he
    cases h with
    | cycle hagain => exact ⟨hchain, hagain⟩

/-- With more files read before, an orderly computation stays orderly. -/
theorem Orderly.mono {load : Load source α} (h : Orderly chain load) {more : List FilePath}
    (hmore : chain ⊆ more) : Orderly more load where
  steady := h.steady
  sound := h.sound
  held := h.held
  asked progress hsound hreads := h.asked progress hsound fun _ hf => hreads (hmore hf)
  cycle progress hsound hreads := h.cycle progress hsound fun _ hf => hreads (hmore hf)

/-- **Orderly computations in sequence** are orderly. The first one may add to the chain that the
second one starts from, if it reads the files that it adds. -/
theorem Orderly.bind {load : Load source α} {next : α → Load source β} (more : List FilePath)
    (hload : Orderly chain load)
    (hmore : ∀ progress, progress.Sound → chain ⊆ progress.reads →
      more ⊆ (after load progress).reads)
    (hnext : ∀ a, Orderly more (next a)) : Orderly chain (load >>= next) where
  steady := hload.steady.bind fun a => (hnext a).steady
  sound progress hsound b hb := by
    rw [result_bind] at hb
    rw [after_bind]
    rcases h : result load progress with e | a <;> rw [h] at hb
    · nomatch hb
    · exact (hnext a).sound _ (hload.sound progress hsound a h) b hb
  held progress hsound e he := by
    rw [result_bind] at he
    rw [after_bind]
    rcases h : result load progress with e' | a <;> rw [h] at he
    · exact hload.held progress hsound e' h
    · exact (hnext a).held _ (hload.sound progress hsound a h) e he
  asked progress hsound hchain e file he hfile := by
    rw [result_bind] at he
    rw [after_bind]
    rcases h : result load progress with e' | a <;> rw [h] at he
    · obtain rfl : e' = e := Except.error.inj he
      exact hload.asked progress hsound hchain e' file h hfile
    · exact (hnext a).asked _ (hload.sound progress hsound a h)
        (hmore progress hsound hchain) e file he hfile
  cycle progress hsound hchain again stack he := by
    rw [result_bind] at he
    rw [after_bind]
    rcases h : result load progress with e' | a <;> rw [h] at he
    · obtain rfl : e' = .cycle again stack := Except.error.inj he
      exact hload.cycle progress hsound hchain again stack h
    · exact (hnext a).cycle _ (hload.sound progress hsound a h)
        (hmore progress hsound hchain) again stack he

/-- What was read before stays read. -/
theorem Steady.reads_subset {load : Load source α} (h : Steady load) {progress : Progress source}
    (hcoherent : progress.Coherent) : progress.reads ⊆ (after load progress).reads := by
  intro path hpath
  rw [h.reads_eq progress hcoherent]
  exact Progress.mem_visitAll.2 (Or.inl hpath)

/-- With the same chain before and after. -/
theorem Orderly.bind_same {load : Load source α} {next : α → Load source β}
    (hload : Orderly chain load) (hnext : ∀ a, Orderly chain (next a)) :
    Orderly chain (load >>= next) :=
  hload.bind chain (fun _ hsound hchain _ hf =>
    hload.steady.reads_subset hsound.toCoherent (hchain hf)) hnext

/-- Fetching the members of a file fails with what is wrong with it. -/
theorem unusable_of_fetchMembers {progress : Progress source} (h : progress.Coherent)
    {path : FilePath} {e : LoadError} (he : result (fetchMembers path) progress = .error e) :
    source.Unusable path e := by
  have hcontents : (outcome (fetchMembers path : Load source _)).map (·.value) = _ :=
    outcome_fetchMembers path
  rw [← (steady_fetchMembers path).result_eq progress h, he] at hcontents
  exact Source.unusable_of_contents hcontents.symm

theorem orderly_fetchMembers (path : FilePath) :
    Orderly chain (fetchMembers path : Load source _) where
  steady := steady_fetchMembers path
  sound progress hsound file hfile := by
    refine ⟨(steady_fetchMembers path).coherent progress hsound.toCoherent file hfile, ?_⟩
    rw [reads_fetchMembers hsound.toCoherent]
    intro other hother
    rcases Progress.mem_visit.1 hother with hother | rfl
    · exact hsound.holds other hother
    · rw [(steady_fetchMembers other).result_eq progress hsound.toCoherent] at hfile
      exact ⟨file.value, outcome_fetchMembers_eq_ok.1 hfile⟩
  held progress hsound _ _ other hother := by
    rw [reads_fetchMembers hsound.toCoherent] at hother
    exact hsound.holds other (Progress.dropLast_visit_subset _ _ hother)
  asked progress hsound _ e file he hfile := by
    obtain rfl : path = file := Option.some.inj
      ((unusable_of_fetchMembers hsound.toCoherent he).file?_eq.symm.trans hfile)
    rw [reads_fetchMembers hsound.toCoherent]
    exact Progress.mem_visit.2 (Or.inr rfl)
  cycle progress hsound _ again stack he :=
    nomatch unusable_of_fetchMembers hsound.toCoherent he

/-- What is fetched joins the chain. -/
theorem Orderly.enter {path : FilePath}
    {next : source.Fetched path (Members Document) → Load source β}
    (hnext : ∀ file, Orderly (chain ++ [path]) (next file)) :
    Orderly chain (fetchMembers path >>= next) := by
  refine (orderly_fetchMembers path).bind (chain ++ [path])
    (fun progress hsound hchain f hf => ?_) hnext
  rw [reads_fetchMembers hsound.toCoherent, Progress.mem_visit]
  rcases List.mem_append.1 hf with hf | hf
  · exact Or.inl (hchain hf)
  · exact Or.inr (List.mem_singleton.1 hf)

theorem orderly_emit (event : Event) : Orderly chain (emit event : Load source Unit) :=
  orderly_of_log (·.push event) fun _ => rfl

theorem compositional_orderly :
    Compositional fun chain α (load : Load source α) => Orderly chain load where
  pure _ _ a := orderly_pure a
  throw _ _ _ h := orderly_throw h
  report _ _ log hlog := orderly_of_log log hlog
  bind _ _ _ _ _ hload hnext := hload.bind_same hnext
  enter chain _ _ path _ _ hinner hnext :=
    -- past the file, the chain is shorter again than what was read
    Orderly.enter fun file => (hinner file).bind_same fun a =>
      (hnext a).mono (List.subset_append_left chain [path])

/-- **The expansion of a root file is orderly.** -/
theorem orderly_expandRoot (root : FilePath) : Orderly [] (expandRoot root : Load source _) :=
  (orderly_emit _).bind_same fun _ =>
    Orderly.enter fun file => compositional_orderly.expansion.1 (.top root) file.value

/-- The load of a root file visits what its expansion visits. -/
theorem visits_root (root : FilePath) :
    visits (Load.root root : Load source _) = source.visited root := by
  rw [Load.root, visits, after_bind, Source.visited, visits]
  rcases result (expandRoot root : Load source _) .start with e | tree
  · rfl
  · dsimp only
    rw [after_finish]

end Load

/-! ### Reports -/

/-- **A report that accounts for its reads.** No path was asked for twice. A success has asked for
the files of its configuration. Before a failure, all reads but the last gave an object; the file
that the error names was asked for, and so was the chain of a cycle. -/
structure Report.Accounted (source : Source) (report : Report) : Prop where
  nodup : report.reads.Nodup
  files_eq : ∀ loaded, report.outcome = .ok loaded → loaded.files = report.reads
  held : ∀ e, report.outcome = .error e → ∀ path ∈ report.reads.dropLast,
    ∃ members, source.Holds path members
  asked : ∀ e file, report.outcome = .error e → e.file? = some file → file ∈ report.reads
  cycle : ∀ again stack, report.outcome = .error (.cycle again stack) →
    stack ⊆ report.reads ∧ again ∈ stack

theorem Source.nodup_visited (root : FilePath) : (source.visited root).Nodup := by
  have hreads := (Load.steady_expandRoot root : Load.Steady (_ : Load source _)).reads_eq .start
    Progress.coherent_start
  rw [Source.visited, Load.visits, hreads]
  exact Progress.nodup_visitAll List.nodup_nil _

theorem Load.accounted_root (root : FilePath) :
    Report.Accounted source (Load.root root : Load source Loaded).toReport := by
  have horderly : Load.Orderly [] (Load.expandRoot root : Load source _) :=
    Load.orderly_expandRoot root
  rw [Load.toReport_eq, Load.visits_root]
  refine ⟨Source.nodup_visited root, fun loaded hloaded => ?_, fun e he => ?_,
    fun e file he => ?_, fun again stack he => ?_⟩
  · obtain ⟨-, -, -, -, rfl⟩ := Load.outcome_root_eq_ok.1 hloaded
    rfl
  · exact horderly.held .start Progress.sound_start e (Load.outcome_root_eq_error.1 he)
  · exact horderly.asked .start Progress.sound_start (List.nil_subset _) e file
      (Load.outcome_root_eq_error.1 he)
  · exact horderly.cycle .start Progress.sound_start (List.nil_subset _) again stack
      (Load.outcome_root_eq_error.1 he)

/-- **Every load accounts for its reads.** -/
theorem load_accounted (env : Environment) (cwd path : String) :
    (load env cwd path).Accounted env.source := by
  -- an error without reads names no file
  have hunread (e : LoadError) (he : e.file? = none) :
      Report.Accounted env.source ⟨.error e, [], []⟩ := by
    refine ⟨List.nodup_nil, by simp, by simp, ?_, ?_⟩
    · rintro _ file ⟨⟩ hfile
      nomatch he.symm.trans hfile
    · rintro again stack ⟨⟩
      nomatch he
  rw [load]
  split
  · exact hunread _ rfl
  · split
    · exact hunread _ rfl
    · exact Load.accounted_root _

end ConfigTree
