import ConfigTree.Load
import ConfigTree.Proofs.Tree

/-!
# The outcome of a load

What a load of a root file comes to, in terms of what files hold: it succeeds exactly when
the root file holds an object that has a tree (`ConfigTree.load_eq_ok_iff`), and the
configuration is then read off that tree. The files of the configuration are those that the
load visits (`ConfigTree.Source.visited`). A load fails when it has no root file, and else when
the expansion of the root file does (`ConfigTree.load_eq_error_iff`).
-/

namespace ConfigTree

/-- The files that the load of a root file visits, in order of the first visit. -/
def Source.visited (source : Source) (root : FilePath) : List FilePath :=
  Load.visits (Load.expandRoot root : Load source _)

namespace Load

variable {source : Source}

theorem steady_expandRoot (root : FilePath) : Steady (expandRoot root : Load source _) :=
  (steady_emit _).bind fun _ => (steady_fetchMembers _).bind fun _ => steady_expandObject _ _

theorem outcome_expandRoot_eq_ok {root : FilePath} {tree : Members (Bool × Marked)} :
    outcome (expandRoot root : Load source _) = .ok tree ↔
      ∃ members, source.Holds root members ∧ source.objectTree (.top root) members = .ok tree := by
  have hobject (file : source.Fetched root (Members Document)) :
      Steady (expandObject (.top root) file.value : Load source _) := steady_expandObject _ _
  rw [expandRoot, outcome_bind_of_ok (steady_emit _) (fun _ => (steady_fetchMembers _).bind hobject)
    rfl, outcome_bind_eq_ok (steady_fetchMembers _) hobject]
  constructor
  · rintro ⟨file, hfile, htree⟩
    exact ⟨file.value, outcome_fetchMembers_eq_ok.1 hfile, htree⟩
  · rintro ⟨members, hholds, htree⟩
    exact ⟨⟨members, hholds.readable⟩, outcome_fetchMembers_eq_ok.2 hholds, htree⟩

/-- What is left to do once the tree is known. -/
theorem result_finish (tree : Members (Bool × Marked)) (progress : Progress source) :
    result (finish tree) progress =
      .ok ⟨Marked.plainMembers tree, Marked.memberPaths tree, progress.files⟩ := rfl

/-- The counts that are reported last. -/
theorem after_finish (tree : Members (Bool × Marked)) (progress : Progress source) :
    after (finish tree) progress = { progress with
      log := (progress.log.push (.extracted (Marked.memberPaths tree).length)).push
        (.loaded progress.files.length) } := rfl

/-- What can be seen of a computation is its result and its progress. -/
theorem toReport_eq (load : Load source Loaded) :
    load.toReport = ⟨outcome load, visits load, (after load .start).log.toList⟩ := by
  rw [toReport, outcome, result, visits, after, EStateM.run]
  cases load .start <;> rfl

theorem outcome_toReport (load : Load source Loaded) : load.toReport.outcome = outcome load := by
  rw [toReport_eq]

/-- Loading a root file, from nothing. -/
theorem outcome_root_eq_ok {root : FilePath} {loaded : Loaded} :
    outcome (Load.root root : Load source _) = .ok loaded ↔
      ∃ members tree, source.Holds root members ∧
        source.objectTree (.top root) members = .ok tree ∧
        loaded = ⟨Marked.plainMembers tree, Marked.memberPaths tree, source.visited root⟩ := by
  have hfiles : ∀ tree, outcome (expandRoot root : Load source _) = .ok tree →
      (after (expandRoot root : Load source _) .start).files = source.visited root := fun tree h =>
    ((steady_expandRoot root).coherent .start Progress.coherent_start tree h).reads_eq.symm
  have hroot : outcome (Load.root root : Load source _) = .ok loaded ↔
      ∃ tree, outcome (expandRoot root : Load source _) = .ok tree ∧
        loaded = ⟨Marked.plainMembers tree, Marked.memberPaths tree, source.visited root⟩ := by
    rw [Load.root, outcome, result_bind, ← outcome]
    rcases h : outcome (expandRoot root : Load source _) with e | tree
    · simp [Except.bind]
    · simp [Except.bind, result_finish, hfiles tree h, eq_comm]
  rw [hroot]
  constructor
  · rintro ⟨tree, htree, rfl⟩
    obtain ⟨members, hholds, htree⟩ := outcome_expandRoot_eq_ok.1 htree
    exact ⟨members, tree, hholds, htree, rfl⟩
  · rintro ⟨members, tree, hholds, htree, rfl⟩
    exact ⟨tree, outcome_expandRoot_eq_ok.2 ⟨members, hholds, htree⟩, rfl⟩

/-- The load of a root file fails when its expansion does. -/
theorem outcome_root_eq_error {root : FilePath} {e : LoadError} :
    outcome (Load.root root : Load source _) = .error e ↔
      outcome (expandRoot root : Load source _) = .error e := by
  rw [Load.root, outcome, result_bind, ← outcome]
  rcases outcome (expandRoot root : Load source _) with e' | tree
  · simp [Except.bind]
  · simp [Except.bind, result_finish]

end Load

/-- **The configuration of a root file**: the object in it has a tree, and the configuration
has the plain members of that tree and the places of its marks. -/
theorem load_eq_ok_iff {env : Environment} {cwd path : String} {loaded : Loaded} :
    (load env cwd path).outcome = .ok loaded ↔
      path ≠ "" ∧ ∃ dir, env.directory cwd = .ok dir ∧
        ∃ members tree, env.source.Holds (dir.resolve path) members ∧
          env.source.objectTree (.top (dir.resolve path)) members = .ok tree ∧
          loaded = ⟨Marked.plainMembers tree, Marked.memberPaths tree,
            env.source.visited (dir.resolve path)⟩ := by
  rw [load]
  split
  · simp [*]
  · rename_i hpath
    split
    · simp [*]
    · rename_i dir hdir
      rw [Load.outcome_toReport, Load.outcome_root_eq_ok]
      constructor
      · rintro ⟨members, tree, h⟩
        exact ⟨hpath, dir, hdir, members, tree, h⟩
      · rintro ⟨-, dir', hdir', members, tree, h⟩
        obtain rfl : dir = dir' := Except.ok.inj (hdir.symm.trans hdir')
        exact ⟨members, tree, h⟩

/-- **The error of a load**: there is no root file to load, or its expansion fails. -/
theorem load_eq_error_iff {env : Environment} {cwd path : String} {e : LoadError} :
    (load env cwd path).outcome = .error e ↔
      path = "" ∧ e = .missingPath ∨
      path ≠ "" ∧ (∃ cause, env.directory cwd = .error cause ∧ e = .unusableDirectory cwd cause) ∨
      path ≠ "" ∧ ∃ dir, env.directory cwd = .ok dir ∧
        Load.outcome (Load.expandRoot (dir.resolve path) : Load env.source _) = .error e := by
  rw [load]
  split
  · simp [*, eq_comm]
  · split
    · simp [*, eq_comm]
    · rw [Load.outcome_toReport, Load.outcome_root_eq_error]
      simp [*]

end ConfigTree
