import ConfigTree.Proofs.Steady
import Mathlib.Data.List.Forall2

/-!
# Two loads side by side

A load from one source and a load from another can be followed step by step when their sources
give documents that correspond, by a relation that may depend on the file. Their progress
**matches** (`ConfigTree.Progress.Matches`) as long as they have asked for the same files, reported
the same events and hold corresponding documents. Two computations are **coupled**
(`ConfigTree.Load.Couples`) if from matching progress they come to matching progress, and either
fail with the same error or give values that correspond.

Coupled computations are closed under sequencing (`ConfigTree.Load.Couples.bind`). The only step
that looks at a source is a fetch, and fetches are coupled when the sources correspond
(`ConfigTree.Load.couples_fetch`).
-/

namespace ConfigTree

/-- **Corresponding outcomes**: the same error, or values that correspond. -/
inductive SameOutcome {ε α β : Type} (R : α → β → Prop) : Except ε α → Except ε β → Prop
  /-- Two values that correspond. -/
  | ok {a : α} {b : β} : R a b → SameOutcome R (.ok a) (.ok b)
  /-- The same error twice. -/
  | error (e : ε) : SameOutcome R (.error e) (.error e)

theorem SameOutcome.imp {ε α β : Type} {R S : α → β → Prop} {x : Except ε α} {y : Except ε β}
    (h : SameOutcome R x y) (himp : ∀ a b, R a b → S a b) : SameOutcome S x y := by
  cases h with
  | ok hab => exact .ok (himp _ _ hab)
  | error e => exact .error e

variable {source other : Source} {D : FilePath → Document → Document → Prop}

namespace Progress

/-- Cached files that correspond: they have one path, and their documents correspond. -/
def SameFile (D : FilePath → Document → Document → Prop) (file : CachedFile source)
    (file' : CachedFile other) : Prop :=
  file.path = file'.path ∧ D file.path file.document file'.document

/-- **Matching progress**: the same requests, the same events, and corresponding files. -/
structure Matches (D : FilePath → Document → Document → Prop) (progress : Progress source)
    (progress' : Progress other) : Prop where
  reads_eq : progress.reads = progress'.reads
  log_eq : progress.log = progress'.log
  cache : List.Forall₂ (SameFile D) progress.cache progress'.cache

theorem matches_start : Matches D (start : Progress source) (start : Progress other) :=
  ⟨rfl, rfl, .nil⟩

theorem Matches.files_eq {progress : Progress source} {progress' : Progress other}
    (h : Matches D progress progress') : progress.files = progress'.files := by
  rw [files, files, ← List.forall₂_eq_eq_eq, List.forall₂_map_left_iff, List.forall₂_map_right_iff]
  exact h.cache.imp fun _ _ => And.left

/-- Matching progress stays so when both sides report the same. -/
theorem Matches.log {progress : Progress source} {progress' : Progress other}
    (h : Matches D progress progress') (log : Array Event → Array Event) :
    Matches D { progress with log := log progress.log }
      { progress' with log := log progress'.log } :=
  ⟨h.reads_eq, congrArg log h.log_eq, h.cache⟩

/-- A file is found on both sides or on none. -/
theorem lookup?_of_forall₂ {cache : List (CachedFile source)} {cache' : List (CachedFile other)}
    (h : List.Forall₂ (SameFile D) cache cache') (path : FilePath) :
    (lookup? path cache = none ∧ lookup? path cache' = none) ∨
      ∃ found found', lookup? path cache = some found ∧ lookup? path cache' = some found' ∧
        D path found.value found'.value := by
  induction h with
  | nil => exact Or.inl ⟨rfl, rfl⟩
  | @cons file file' _ _ hfile _ ih =>
    obtain ⟨hpath, hdocument⟩ := hfile
    rw [lookup?, lookup?]
    by_cases hhere : file.path = path
    · rw [dif_pos hhere, dif_pos (hpath ▸ hhere)]
      exact Or.inr ⟨_, _, rfl, rfl, hhere ▸ hdocument⟩
    · rw [dif_neg hhere, dif_neg (hpath ▸ hhere)]
      exact ih

end Progress

namespace Load

variable {α α' β β' : Type} {V : α → β → Prop} {W : α' → β' → Prop}

/-- **Coupled computations**: from matching progress they fail with the same error or give
corresponding values, and their progress matches again. -/
def Couples (D : FilePath → Document → Document → Prop) (V : α → β → Prop) (load : Load source α)
    (load' : Load other β) : Prop :=
  ∀ progress progress', progress.Coherent → progress.Matches D progress' →
    SameOutcome V (result load progress) (result load' progress') ∧
      (after load progress).Matches D (after load' progress')

theorem couples_pure {a : α} {b : β} (h : V a b) :
    Couples D V (pure a : Load source α) (pure b : Load other β) :=
  fun _ _ _ hmatch => ⟨.ok h, hmatch⟩

theorem couples_throw (e : LoadError) :
    Couples D V (throw e : Load source α) (throw e : Load other β) :=
  fun _ _ _ hmatch => ⟨.error e, hmatch⟩

/-- Computations that only report the same are coupled. -/
theorem couples_of_log {load : Load source Unit} {load' : Load other Unit}
    (log : Array Event → Array Event)
    (h : ∀ progress, load progress = .ok () { progress with log := log progress.log })
    (h' : ∀ progress, load' progress = .ok () { progress with log := log progress.log }) :
    Couples D Eq load load' := by
  intro progress progress' _ hmatch
  rw [result, result, after, after, h, h']
  exact ⟨.ok rfl, hmatch.log log⟩

theorem couples_emit (event : Event) :
    Couples D Eq (emit event : Load source Unit) (emit event : Load other Unit) :=
  couples_of_log (·.push event) (fun _ => rfl) fun _ => rfl

/-- **Coupled computations in sequence** are coupled. -/
theorem Couples.bind {load : Load source α} {load' : Load other β} {next : α → Load source α'}
    {next' : β → Load other β'} (h : Couples D V load load') (hload : Steady load)
    (hnext : ∀ a b, V a b → Couples D W (next a) (next' b)) :
    Couples D W (load >>= next) (load' >>= next') := by
  intro progress progress' hcoherent hmatch
  obtain ⟨houtcome, hafter⟩ := h progress progress' hcoherent hmatch
  rw [result_bind, result_bind, after_bind, after_bind]
  generalize hresult : result load progress = outcome at houtcome ⊢
  generalize result load' progress' = outcome' at houtcome ⊢
  cases houtcome with
  | error e => exact ⟨.error e, hafter⟩
  | @ok a b hab =>
    exact hnext a b hab _ _ (hload.coherent progress hcoherent a hresult) hafter

/-! ### Fetching -/

/-- Reading a file reports that, and caches nothing when it fails. -/
theorem read_progress {progress : Progress source} {path : FilePath} (h : path ∉ progress.reads) :
    (after (read path) progress).log = progress.log.push (.reading path) ∧
      ∀ e, result (read path) progress = .error e →
        (after (read path) progress).cache = progress.cache := by
  rcases ha : source.answer path 0 with e | text
  · rw [result, after, read, bind_of_error (ask_of_error h ha)]
    exact ⟨rfl, fun _ _ => rfl⟩
  · obtain ⟨hreadable, hask⟩ := ask_of_ok h ha
    rw [result, after, read, bind_of_ok hask]
    dsimp only
    rcases Document.parse text with e | d
    · exact ⟨rfl, fun _ _ => rfl⟩
    · refine ⟨rfl, ?_⟩
      rintro e ⟨⟩

/-- What is found in a file corresponds when its documents do. -/
theorem sameOutcome_of_map {path : FilePath} {x : Except LoadError (source.Fetched path Document)}
    {y : Except LoadError (other.Fetched path Document)}
    (h : SameOutcome (D path) (x.map (·.value)) (y.map (·.value))) :
    SameOutcome (fun file file' => D path file.value file'.value) x y := by
  rcases x with e | file <;> rcases y with e' | file'
  · cases h
    exact .error _
  · cases h
  · cases h
  · cases h with
    | ok hdocument => exact .ok hdocument

/-- A file that was not asked for before is read on both sides. -/
theorem read_of_matches {progress : Progress source} {progress' : Progress other} {path : FilePath}
    (h : SameOutcome (D path) (source.document path) (other.document path))
    (hmatch : progress.Matches D progress') (hpath : path ∉ progress.reads) :
    SameOutcome (fun file file' => D path file.value file'.value) (result (read path) progress)
        (result (read path) progress') ∧
      (after (read path) progress).Matches D (after (read path) progress') := by
  have hpath' : path ∉ progress'.reads := hmatch.reads_eq ▸ hpath
  obtain ⟨hdocument, hreads, hcache⟩ := read_spec hpath
  obtain ⟨hdocument', hreads', hcache'⟩ := read_spec hpath'
  obtain ⟨hlog, herror⟩ := read_progress hpath
  obtain ⟨hlog', herror'⟩ := read_progress hpath'
  rw [← hdocument, ← hdocument'] at h
  have houtcome := sameOutcome_of_map h
  refine ⟨houtcome, by rw [hreads, hreads', hmatch.reads_eq], by rw [hlog, hlog', hmatch.log_eq],
    ?_⟩
  -- the caches grow by the file on both sides or on none
  generalize result (read path) progress = outcome at houtcome hcache herror
  generalize result (read path) progress' = outcome' at houtcome hcache' herror'
  cases houtcome with
  | error e =>
    rw [herror e rfl, herror' e rfl]
    exact hmatch.cache
  | ok hfile =>
    rw [hcache _ rfl, hcache' _ rfl]
    exact List.rel_append hmatch.cache (.cons ⟨rfl, hfile⟩ .nil)

/-- **Fetches are coupled** when the sources give corresponding documents. -/
theorem couples_fetch {path : FilePath}
    (h : SameOutcome (D path) (source.document path) (other.document path)) :
    Couples D (fun file file' => D path file.value file'.value) (fetch path : Load source _)
      (fetch path : Load other _) := by
  intro progress progress' hcoherent hmatch
  rcases Progress.lookup?_of_forall₂ hmatch.cache path with
    ⟨hnone, hnone'⟩ | ⟨found, found', hfound, hfound', hdocument⟩
  · -- what is not in a coherent cache was not asked for, so both sides read it
    have hpath : path ∉ progress.reads := hcoherent.cached?_eq_none_iff.1 hnone
    have hread := read_of_matches h hmatch hpath
    simp only [result, after, fetch_of_not_cached hnone, fetch_of_not_cached hnone']
    exact hread
  · simp only [result, after, fetch_of_cached hfound, fetch_of_cached hfound']
    exact ⟨.ok hdocument, hmatch.log (·.push (.cacheHit path))⟩

end Load

end ConfigTree
