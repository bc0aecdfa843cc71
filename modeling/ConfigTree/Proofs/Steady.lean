import ConfigTree.Load.Progress

/-!
# What a load computes, whatever it did before

A load carries its progress along: a cache of the files it has read, the paths it has asked
for, a log. This file shows that its outcome does not depend on them, as long as the
progress is **coherent** (`ConfigTree.Progress.Coherent`): the cache holds, for each path
that was asked for, what the first read of that path gives.

A computation is **steady** (`ConfigTree.Load.Steady`) if from every coherent progress it
gives what it gives at the start (`ConfigTree.Load.outcome`), visits the files that it
visits there (`ConfigTree.Load.visits`), and is coherent again unless it fails. Steady
computations are closed under sequencing (`ConfigTree.Load.Steady.bind`), and on them
`outcome` commutes with sequencing (`ConfigTree.Load.outcome_bind`). So the outcome of a
steady computation can be read as if there were no cache at all: a file means its contents
(`ConfigTree.Source.contents`).
-/

namespace ConfigTree

/-! ### The contents of files -/

namespace Source

variable (source : Source)

/-- The document that the first read of a path gives. -/
def document (path : FilePath) : Except LoadError Document :=
  match source.answer path 0 with
  | .error e => .error (.readFailed path e)
  | .ok text => (Document.parse text).mapError (.parseFailed path)

/-- **The contents of a file**: the members of the object in it. -/
def contents (path : FilePath) : Except LoadError (Members Document) :=
  match source.document path with
  | .error e => .error e
  | .ok (.object members) => .ok members
  | .ok _ => .error (.invalidRoot path)

/-- **What a file holds**: it can be read, its text is a document, and that is an object. -/
def Holds (path : FilePath) (members : Members Document) : Prop :=
  ∃ text, source.answer path 0 = .ok text ∧ Document.parse text = .ok (.object members)

variable {source}

/-- A document is read when the first read gives a text that parses as it. -/
theorem document_eq_ok_iff {path : FilePath} {d : Document} :
    source.document path = .ok d ↔
      ∃ text, source.answer path 0 = .ok text ∧ Document.parse text = .ok d := by
  rw [document]
  rcases source.answer path 0 with e | text
  · simp
  · simp [mapError_eq_ok_iff]

theorem holds_iff {path : FilePath} {members : Members Document} :
    source.Holds path members ↔ source.document path = .ok (.object members) :=
  document_eq_ok_iff.symm

theorem contents_eq_ok_iff {path : FilePath} {members : Members Document} :
    source.contents path = .ok members ↔ source.Holds path members := by
  rw [holds_iff, contents]
  rcases source.document path with e | (_ | _ | _) <;> simp

theorem Holds.readable {path : FilePath} {members : Members Document}
    (h : source.Holds path members) : source.Readable path := by
  obtain ⟨text, htext, -⟩ := h
  exact ⟨0, text, htext⟩

theorem Holds.unique {path : FilePath} {members other : Members Document}
    (h : source.Holds path members) (h' : source.Holds path other) : members = other := by
  rw [← contents_eq_ok_iff] at h h'
  exact Except.ok.inj (h.symm.trans h')

end Source

/-! ### Visiting files -/

namespace Progress

/-- The paths seen after one more visit: a path is listed at its first visit only. -/
def visit (seen : List FilePath) (path : FilePath) : List FilePath :=
  if path ∈ seen then seen else seen ++ [path]

/-- The paths seen after some more visits. -/
def visitAll (seen paths : List FilePath) : List FilePath := paths.foldl visit seen

@[simp] theorem visitAll_nil (seen : List FilePath) : visitAll seen [] = seen := rfl

@[simp] theorem visitAll_cons (seen : List FilePath) (path : FilePath) (paths : List FilePath) :
    visitAll seen (path :: paths) = visitAll (visit seen path) paths := rfl

theorem visitAll_append (seen paths more : List FilePath) :
    visitAll seen (paths ++ more) = visitAll (visitAll seen paths) more :=
  List.foldl_append

theorem visit_of_mem {seen : List FilePath} {path : FilePath} (h : path ∈ seen) :
    visit seen path = seen := if_pos h

theorem mem_visit {seen : List FilePath} {path other : FilePath} :
    other ∈ visit seen path ↔ other ∈ seen ∨ other = path := by
  unfold visit
  split
  · constructor
    · exact Or.inl
    · rintro (h | rfl)
      · exact h
      · assumption
  · simp

theorem mem_visitAll {seen paths : List FilePath} {path : FilePath} :
    path ∈ visitAll seen paths ↔ path ∈ seen ∨ path ∈ paths := by
  induction paths generalizing seen with
  | nil => simp
  | cons next paths ih => rw [visitAll_cons, ih, mem_visit, List.mem_cons, or_assoc]

theorem nodup_visit {seen : List FilePath} (h : seen.Nodup) (path : FilePath) :
    (visit seen path).Nodup := by
  unfold visit
  split
  · exact h
  · rename_i hp
    refine List.nodup_append.2 ⟨h, by simp, ?_⟩
    rintro x hx y hy rfl
    exact hp (List.mem_singleton.1 hy ▸ hx)

theorem nodup_visitAll {seen : List FilePath} (h : seen.Nodup) (paths : List FilePath) :
    (visitAll seen paths).Nodup := by
  induction paths generalizing seen with
  | nil => exact h
  | cons path paths ih => exact ih (nodup_visit h path)

/-- Visits that are themselves a list of first visits may be visited one list after the
other. -/
theorem visitAll_visitAll (seen paths more : List FilePath) :
    visitAll seen (visitAll paths more) = visitAll (visitAll seen paths) more := by
  induction more generalizing paths with
  | nil => rfl
  | cons path more ih =>
    rw [visitAll_cons, visitAll_cons, ih]
    congr 1
    -- a path of the first list is known when it is visited again, and a new one is new to both
    by_cases h : path ∈ paths
    · rw [visit_of_mem h, visit_of_mem (mem_visitAll.2 (Or.inr h))]
    · rw [visit, if_neg h, visitAll_append]
      rfl

/-! ### Coherent progress -/

variable {source : Source}

/-- **Coherent progress**: every path that was asked for is in the cache, once, with the
document that its first read gives. -/
structure Coherent (progress : Progress source) : Prop where
  reads_eq : progress.reads = progress.files
  nodup : progress.reads.Nodup
  document_eq : ∀ file ∈ progress.cache, source.document file.path = .ok file.document

theorem coherent_start : (start : Progress source).Coherent :=
  ⟨rfl, List.nodup_nil, by simp [start]⟩

/-- Reporting an event does not touch what coherence is about. -/
theorem Coherent.log {progress : Progress source} (h : progress.Coherent) (log : Array Event) :
    ({ progress with log := log } : Progress source).Coherent :=
  ⟨h.reads_eq, h.nodup, h.document_eq⟩

theorem lookup?_eq_none_iff {path : FilePath} {cache : List (CachedFile source)} :
    lookup? path cache = none ↔ path ∉ cache.map (·.path) := by
  induction cache with
  | nil => simp [lookup?]
  | cons file rest ih =>
    rw [lookup?]
    split
    · rename_i h
      simp [h]
    · rename_i h
      simp [ih, Ne.symm h]

/-- With coherent progress, the files in the cache are those that were asked for. -/
theorem Coherent.cached?_eq_none_iff {progress : Progress source} (h : progress.Coherent)
    {path : FilePath} : progress.cached? path = none ↔ path ∉ progress.reads := by
  rw [h.reads_eq]
  exact lookup?_eq_none_iff

theorem mem_of_lookup? {path : FilePath} {cache : List (CachedFile source)}
    {found : source.Fetched path Document} (h : lookup? path cache = some found) :
    ∃ file ∈ cache, file.path = path ∧ file.document = found.value := by
  induction cache with
  | nil => simp [lookup?] at h
  | cons file rest ih =>
    rw [lookup?] at h
    split at h
    · rename_i hp
      cases h
      exact ⟨file, List.mem_cons_self, hp, rfl⟩
    · obtain ⟨other, hm, hp, hd⟩ := ih h
      exact ⟨other, List.mem_cons_of_mem _ hm, hp, hd⟩

end Progress

/-! ### Running a load -/

namespace Load

variable {source : Source} {α β : Type}

/-- What a computation gives from some progress on. -/
def result (load : Load source α) (progress : Progress source) : Except LoadError α :=
  match load progress with
  | .ok a _ => .ok a
  | .error e _ => .error e

/-- The progress after a computation, also after one that fails. -/
def after (load : Load source α) (progress : Progress source) : Progress source :=
  match load progress with
  | .ok _ p => p
  | .error _ p => p

/-- What a computation gives when nothing was done before. -/
def outcome (load : Load source α) : Except LoadError α := result load .start

/-- The files that a computation visits when nothing was done before. -/
def visits (load : Load source α) : List FilePath := (after load .start).reads

theorem result_bind (load : Load source α) (next : α → Load source β)
    (progress : Progress source) :
    result (load >>= next) progress =
      (result load progress).bind fun a => result (next a) (after load progress) := by
  simp only [result, after, bind, EStateM.bind]
  cases load progress <;> rfl

theorem after_bind (load : Load source α) (next : α → Load source β)
    (progress : Progress source) :
    after (load >>= next) progress =
      match result load progress with
      | .ok a => after (next a) (after load progress)
      | .error _ => after load progress := by
  simp only [result, after, bind, EStateM.bind]
  cases load progress <;> rfl

theorem eq_ok_of_result {load : Load source α} {progress : Progress source} {a : α}
    (h : result load progress = .ok a) : load progress = .ok a (after load progress) := by
  rcases hload : load progress with ⟨b, later⟩ | ⟨e, later⟩
  · rw [result, hload] at h
    rw [after, hload, Except.ok.inj h]
  · rw [result, hload] at h
    cases h

theorem emit_eq (event : Event) (progress : Progress source) :
    emit event progress = .ok () { progress with log := progress.log.push event } := rfl

theorem bind_of_ok {load : Load source α} {next : α → Load source β} {a : α}
    {progress later : Progress source} (h : load progress = .ok a later) :
    (load >>= next) progress = next a later := by
  simp only [bind, EStateM.bind, h]

theorem bind_of_error {load : Load source α} {next : α → Load source β} {e : LoadError}
    {progress later : Progress source} (h : load progress = .error e later) :
    (load >>= next) progress = .error e later := by
  simp only [bind, EStateM.bind, h]

@[simp] theorem emit_bind (event : Event) (next : Unit → Load source β)
    (progress : Progress source) :
    (emit event >>= next) progress =
      next () { progress with log := progress.log.push event } := rfl

@[simp] theorem get_bind (next : Progress source → Load source β) (progress : Progress source) :
    ((get : Load source _) >>= next) progress = next progress progress := rfl

@[simp] theorem modify_bind (f : Progress source → Progress source) (next : Unit → Load source β)
    (progress : Progress source) :
    ((modify f : Load source _) >>= next) progress = next () (f progress) := rfl

@[simp] theorem result_pure (a : α) (progress : Progress source) :
    result (pure a : Load source α) progress = .ok a := rfl

@[simp] theorem after_pure (a : α) (progress : Progress source) :
    after (pure a : Load source α) progress = progress := rfl

@[simp] theorem result_throw (e : LoadError) (progress : Progress source) :
    result (throw e : Load source α) progress = .error e := rfl

@[simp] theorem after_throw (e : LoadError) (progress : Progress source) :
    after (throw e : Load source α) progress = progress := rfl

@[simp] theorem result_emit (event : Event) (progress : Progress source) :
    result (emit event) progress = .ok () := rfl

@[simp] theorem after_emit (event : Event) (progress : Progress source) :
    after (emit event) progress = { progress with log := progress.log.push event } := rfl

/-- What `fetch` does when the file is in the cache. -/
theorem fetch_of_cached {progress : Progress source} {path : FilePath}
    {found : source.Fetched path Document} (h : progress.cached? path = some found) :
    fetch path progress = .ok found (after (emit (.cacheHit path)) progress) := by
  rw [fetch, get_bind, h]
  rfl

/-- What `fetch` does when the file is not in the cache. -/
theorem fetch_of_not_cached {progress : Progress source} {path : FilePath}
    (h : progress.cached? path = none) : fetch path progress = read path progress := by
  rw [fetch, get_bind, h]

/-- What `ask` does with a path that cannot be read. -/
theorem ask_of_error {progress : Progress source} {path : FilePath} {e : ReadError}
    (h : path ∉ progress.reads) (he : source.answer path 0 = .error e) :
    ask path progress = .error (.readFailed path e)
      ⟨progress.reads ++ [path], progress.cache, progress.log.push (.reading path)⟩ := by
  rw [ask, emit_bind, get_bind, modify_bind, List.count_eq_zero_of_not_mem h,
    Source.request_of_error he]
  rfl

/-- What `ask` does with a path that can be read. -/
theorem ask_of_ok {progress : Progress source} {path : FilePath} {text : String}
    (h : path ∉ progress.reads) (htext : source.answer path 0 = .ok text) :
    ∃ hreadable, ask path progress = .ok ⟨text, hreadable⟩
      ⟨progress.reads ++ [path], progress.cache, progress.log.push (.reading path)⟩ := by
  refine ⟨⟨0, text, htext⟩, ?_⟩
  rw [ask, emit_bind, get_bind, modify_bind, List.count_eq_zero_of_not_mem h,
    Source.request_of_ok htext]
  rfl

/-- What `read` does with a path that was not asked for before: it gives the document of the
path, has asked for the path, and caches what it gives. -/
theorem read_spec {progress : Progress source} {path : FilePath} (h : path ∉ progress.reads) :
    (result (read path) progress).map (·.value) = source.document path ∧
      (after (read path) progress).reads = progress.reads ++ [path] ∧
      ∀ file, result (read path) progress = .ok file →
        (after (read path) progress).cache =
          progress.cache ++ [⟨path, file.value, file.readable⟩] := by
  rcases ha : source.answer path 0 with e | text
  · rw [result, after, read, bind_of_error (ask_of_error h ha), Source.document, ha]
    exact ⟨rfl, rfl, by simp⟩
  · obtain ⟨hreadable, hask⟩ := ask_of_ok h ha
    rw [result, after, read, bind_of_ok hask, Source.document, ha]
    dsimp only
    rcases hd : Document.parse text with e | d
    · refine ⟨rfl, rfl, ?_⟩
      rintro file ⟨⟩
    · refine ⟨rfl, rfl, ?_⟩
      rintro file ⟨⟩
      rfl

/-! ### Steady computations -/

/-- **Steady computations**: from every coherent progress they give the same, visit the same
files, and leave coherent progress unless they fail. -/
structure Steady (load : Load source α) : Prop where
  result_eq : ∀ progress, progress.Coherent → result load progress = outcome load
  reads_eq : ∀ progress, progress.Coherent →
    (after load progress).reads = Progress.visitAll progress.reads (visits load)
  coherent : ∀ progress, progress.Coherent → ∀ a, result load progress = .ok a →
    (after load progress).Coherent

theorem steady_pure (a : α) : Steady (pure a : Load source α) where
  result_eq _ _ := rfl
  reads_eq _ _ := rfl
  coherent _ h _ _ := h

theorem steady_throw (e : LoadError) : Steady (throw e : Load source α) where
  result_eq _ _ := rfl
  reads_eq _ _ := rfl
  coherent _ _ _ h := by simp at h

/-- A computation that only reports is steady. -/
theorem steady_of_log {load : Load source Unit} (log : Array Event → Array Event)
    (h : ∀ progress, load progress = .ok () { progress with log := log progress.log }) :
    Steady load where
  result_eq progress _ := by rw [outcome, result, result, h, h]
  reads_eq progress _ := by
    rw [visits, after, after, h, h]
    rfl
  coherent progress hp _ _ := by
    rw [after, h]
    exact hp.log _

theorem steady_emit (event : Event) : Steady (emit event : Load source Unit) :=
  steady_of_log (·.push event) fun _ => rfl

@[simp] theorem outcome_pure (a : α) : outcome (pure a : Load source α) = .ok a := rfl

@[simp] theorem outcome_throw (e : LoadError) : outcome (throw e : Load source α) = .error e := rfl

/-- What a steady computation and then another one visit. -/
theorem visits_bind {load : Load source α} {next : α → Load source β} {a : α}
    (hload : Steady load) (hnext : Steady (next a)) (h : outcome load = .ok a) :
    visits (load >>= next) = Progress.visitAll (visits load) (visits (next a)) := by
  have hstart := hload.coherent .start Progress.coherent_start a h
  rw [visits, after_bind, show result load .start = .ok a from h]
  exact hnext.reads_eq _ hstart

/-- **Outcomes in sequence**: a steady computation hands nothing but its outcome on. -/
theorem outcome_bind {load : Load source α} {next : α → Load source β} (hload : Steady load)
    (hnext : ∀ a, Steady (next a)) :
    outcome (load >>= next) = (outcome load).bind fun a => outcome (next a) := by
  rw [outcome, result_bind, show result load .start = outcome load from rfl]
  rcases h : outcome load with e | a
  · rfl
  · exact (hnext a).result_eq _ (hload.coherent .start Progress.coherent_start a h)

/-- A sequence succeeds exactly when both of its parts do. -/
theorem outcome_bind_eq_ok {load : Load source α} {next : α → Load source β} {b : β}
    (hload : Steady load) (hnext : ∀ a, Steady (next a)) :
    outcome (load >>= next) = .ok b ↔
      ∃ a, outcome load = .ok a ∧ outcome (next a) = .ok b := by
  rw [outcome_bind hload hnext]
  rcases outcome load with e | a
  · simp [Except.bind]
  · simp [Except.bind]

/-- After a step that succeeds, a sequence gives what its rest gives. -/
theorem outcome_bind_of_ok {load : Load source α} {next : α → Load source β} {a : α}
    (hload : Steady load) (hnext : ∀ a, Steady (next a)) (h : outcome load = .ok a) :
    outcome (load >>= next) = outcome (next a) := by
  rw [outcome_bind hload hnext, h]
  rfl

/-- **Steady computations in sequence** are steady. -/
theorem Steady.bind {load : Load source α} {next : α → Load source β} (hload : Steady load)
    (hnext : ∀ a, Steady (next a)) : Steady (load >>= next) where
  result_eq progress hp := by
    rw [outcome_bind hload hnext, result_bind, hload.result_eq progress hp]
    rcases h : outcome load with e | a
    · rfl
    · exact (hnext a).result_eq _ (hload.coherent progress hp a ((hload.result_eq _ hp).trans h))
  reads_eq progress hp := by
    rw [after_bind, hload.result_eq progress hp]
    rcases h : outcome load with e | a
    · -- after a failure nothing else is visited, here and from the start
      have : visits (load >>= next) = visits load := by
        rw [visits, after_bind, show result load .start = .error e from h]
        rfl
      rw [this]
      exact hload.reads_eq progress hp
    · have hafter := hload.coherent progress hp a ((hload.result_eq _ hp).trans h)
      rw [visits_bind hload (hnext a) h, Progress.visitAll_visitAll, ← hload.reads_eq _ hp]
      exact (hnext a).reads_eq _ hafter
  coherent progress hp b hb := by
    rw [after_bind]
    rw [result_bind] at hb
    rcases h : result load progress with e | a
    · simp [h, Except.bind] at hb
    · rw [h] at hb
      exact (hnext a).coherent _ (hload.coherent progress hp a h) b hb

/-- What is visited before a failure stays visited, and so does what is visited before the
rest of a computation. -/
theorem visits_subset_bind {load : Load source α} {next : α → Load source β}
    (hload : Steady load) (hnext : ∀ a, Steady (next a)) :
    visits load ⊆ visits (load >>= next) := by
  intro path hpath
  rcases h : outcome load with e | a
  · rw [visits, after_bind, show result load .start = .error e from h]
    exact hpath
  · rw [visits_bind hload (hnext a) h]
    exact Progress.mem_visitAll.2 (Or.inl hpath)

/-- What a sequence visits whose first part succeeds. -/
theorem mem_visits_bind {load : Load source α} {next : α → Load source β} {a : α}
    (hload : Steady load) (hnext : ∀ a, Steady (next a)) (h : outcome load = .ok a)
    {path : FilePath} :
    path ∈ visits (load >>= next) ↔ path ∈ visits load ∨ path ∈ visits (next a) := by
  rw [visits_bind hload (hnext a) h, Progress.mem_visitAll]

/-! ### Fetching a file -/

/-- What was found in a file is known by its value. -/
theorem fetched_eq {path : FilePath} {x y : Except LoadError (source.Fetched path α)}
    (h : x.map (·.value) = y.map (·.value)) : x = y := by
  rcases x with e | ⟨a, ha⟩ <;> rcases y with e' | ⟨b, hb⟩ <;> simp_all [Except.map]

/-- **Fetching** gives the document of a file, whether it comes from the cache or not. -/
theorem fetch_spec {progress : Progress source} (h : progress.Coherent) (path : FilePath) :
    (result (fetch path) progress).map (·.value) = source.document path ∧
      (after (fetch path) progress).reads = Progress.visit progress.reads path ∧
      ∀ file, result (fetch path) progress = .ok file →
        (after (fetch path) progress).Coherent := by
  rcases hc : progress.cached? path with _ | found
  · -- whatever was asked for is in the cache, so this is the first time that the path is
    have hpath : path ∉ progress.reads := h.cached?_eq_none_iff.1 hc
    have hresult : result (fetch path) progress = result (read path) progress := by
      rw [result, fetch_of_not_cached hc, result]
    have hafter : after (fetch path) progress = after (read path) progress := by
      rw [after, fetch_of_not_cached hc, after]
    rw [hresult, hafter]
    obtain ⟨hvalue, hreads, hcache⟩ := read_spec hpath
    refine ⟨hvalue, hreads.trans (if_neg hpath).symm, fun file hfile => ?_⟩
    have hdocument : source.document path = .ok file.value := by
      rw [← hvalue, hfile]
      rfl
    refine ⟨?_, ?_, ?_⟩
    · rw [Progress.files, hreads, hcache file hfile, h.reads_eq, List.map_append]
      rfl
    · rw [hreads, ← show Progress.visit progress.reads path = _ from if_neg hpath]
      exact Progress.nodup_visit h.nodup path
    · intro other hother
      rw [hcache file hfile] at hother
      rcases List.mem_append.1 hother with hother | hother
      · exact h.document_eq other hother
      · obtain rfl := List.mem_singleton.1 hother
        exact hdocument
  · obtain ⟨file, hmem, rfl, hd⟩ := Progress.mem_of_lookup? hc
    have hpath : file.path ∈ progress.reads := by
      rw [h.reads_eq]
      exact List.mem_map_of_mem hmem
    simp only [result, after, fetch_of_cached hc]
    refine ⟨?_, (Progress.visit_of_mem hpath).symm, fun _ _ => h.log _⟩
    rw [h.document_eq file hmem, hd]
    rfl

theorem outcome_fetch (path : FilePath) :
    (outcome (fetch path : Load source _)).map (·.value) = source.document path :=
  (fetch_spec Progress.coherent_start path).1

@[simp] theorem visits_fetch (path : FilePath) :
    visits (fetch path : Load source _) = [path] :=
  (fetch_spec Progress.coherent_start path).2.1

theorem steady_fetch (path : FilePath) : Steady (fetch path : Load source _) where
  result_eq _ h := fetched_eq ((fetch_spec h path).1.trans (outcome_fetch path).symm)
  reads_eq progress h := by
    rw [visits_fetch]
    exact (fetch_spec h path).2.1
  coherent _ h _ hok := (fetch_spec h path).2.2 _ hok

/-- The members of the object that was found in a file. -/
def membersIn {path : FilePath} :
    source.Fetched path Document → Load source (source.Fetched path (Members Document))
  | ⟨.object members, h⟩ => return ⟨members, h⟩
  | _ => throw (.invalidRoot path)

theorem fetchMembers_eq (path : FilePath) :
    (fetchMembers path : Load source _) = fetch path >>= membersIn := rfl

theorem steady_membersIn {path : FilePath} (file : source.Fetched path Document) :
    Steady (membersIn file) := by
  rcases file with ⟨_ | _ | _, _⟩
  · exact steady_throw _
  · exact steady_throw _
  · exact steady_pure _

theorem steady_fetchMembers (path : FilePath) : Steady (fetchMembers path : Load source _) :=
  (steady_fetch path).bind steady_membersIn

/-- **The contents of a file** are what its members are fetched as. -/
theorem outcome_fetchMembers (path : FilePath) :
    (outcome (fetchMembers path : Load source _)).map (·.value) = source.contents path := by
  rw [fetchMembers_eq, outcome_bind (steady_fetch path) steady_membersIn, Source.contents,
    ← outcome_fetch]
  rcases outcome (fetch path : Load source _) with e | ⟨_ | _ | _, _⟩ <;> rfl

/-- Fetching the members of a file succeeds exactly when the file holds an object. -/
theorem outcome_fetchMembers_eq_ok {path : FilePath}
    {file : source.Fetched path (Members Document)} :
    outcome (fetchMembers path) = .ok file ↔ source.Holds path file.value := by
  rw [← Source.contents_eq_ok_iff, ← outcome_fetchMembers]
  rcases h : outcome (fetchMembers path : Load source _) with e | ⟨members, _⟩
  · simp [Except.map]
  · rcases file with ⟨other, _⟩
    simp [Except.map]

/-- A file is visited when its members are fetched, also when that fails. -/
theorem mem_visits_fetchMembers (path : FilePath) :
    path ∈ visits (fetchMembers path : Load source _) :=
  visits_subset_bind (steady_fetch path) steady_membersIn (by simp)

end Load

end ConfigTree
