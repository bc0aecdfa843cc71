import ConfigTree.Proofs.Parallel
import ConfigTree.Proofs.Reads
import ConfigTree.Session
import Mathlib.Data.List.Nodup

/-!
# Loads in a session

The files of a session may change under every read. Still, a load of a session sees them as they
are when it begins: it asks for no path twice, so it gives what a load gives over files that never
change again (`ConfigTree.Environment.frozen`). Nothing of earlier loads matters to it but the
store that they left, and in that store it advances the files that it read by one read each
(`ConfigTree.SessionStep.load_in_session`).
-/

namespace ConfigTree

/-- **The source with every path frozen** at what its next read gives. -/
def Source.frozen (source : Source) : Source where
  answer path _ := source.answer path 0
  finite := by
    obtain ⟨known, hknown⟩ := source.finite
    exact ⟨known, fun path _ text h => hknown path 0 text h⟩

/-- **What a load finds around it, with its files frozen.** -/
def Environment.frozen (env : Environment) : Environment :=
  ⟨env.source.frozen, env.workingDirectory⟩

/-- A load does not see the files change. -/
theorem load_frozen (env : Environment) (cwd path : String) :
    load env cwd path = load env.frozen cwd path :=
  have hfirst : ∀ path, env.source.answer path 0 = env.source.frozen.answer path 0 := fun _ => rfl
  load_congr hfirst cwd path

/-- What a store holds after some reads: no file has changed but in its count. -/
theorem MemoryFiles.get?_advance (files : MemoryFiles) (reads : List FilePath) (key : String) :
    (files.advance reads).get? key = (files.get? key).map fun file =>
      { file with taken := file.taken + (reads.map FilePath.text).count key } := by
  induction files with
  | nil => rfl
  | cons member rest ih =>
    obtain ⟨name, file⟩ := member
    rw [MemoryFiles.advance, List.map_cons, Members.get?_cons, Members.get?_cons,
      ← MemoryFiles.advance, ih]
    split
    · rename_i hname
      rw [hname, Option.map_some]
    · rfl

/-- Reads without repetition count a path once or not at all. -/
theorem count_text {reads : List FilePath} (h : reads.Nodup) (key : String) :
    (reads.map FilePath.text).count key = if ∃ path ∈ reads, path.text = key then 1 else 0 := by
  have htexts : (reads.map FilePath.text).Nodup :=
    List.Nodup.map (fun _ _ => FilePath.text_injective) h
  simp only [htexts.count, List.mem_map]

namespace SessionStep

/-- The store after the steps of a session. -/
def storeAfter (cwd : String) (files : MemoryFiles) (steps : List SessionStep) : MemoryFiles :=
  steps.foldl (fun files step => (step.run cwd files).1) files

/-- The answer to a step is the one from the store that the steps before it left. -/
theorem getElem?_runAll (cwd : String) (files : MemoryFiles) (before : List SessionStep)
    (step : SessionStep) (later : List SessionStep) :
    (runAll cwd files (before ++ step :: later))[before.length]? =
      some (step.run cwd (storeAfter cwd files before)).2 := by
  induction before generalizing files with
  | nil => rfl
  | cons first before ih =>
    rw [List.cons_append, runAll, List.length_cons, List.getElem?_cons_succ, ih]
    rfl

theorem storeAfter_concat (cwd : String) (files : MemoryFiles) (before : List SessionStep)
    (step : SessionStep) :
    storeAfter cwd files (before ++ [step]) = (step.run cwd (storeAfter cwd files before)).1 := by
  rw [storeAfter, List.foldl_append]
  rfl

/-- **A load in a session** asks for no path twice. It gives what a load gives over the files as
they are when it begins, frozen, whatever was loaded before. A success has read just the files of
its configuration; before a failure, all but the last read gave a text that parsed. And in the
store that it leaves, each file has advanced by one read if it was read, and is otherwise as it
was. -/
theorem load_in_session (cwd : String) (files : MemoryFiles) (before later : List SessionStep)
    (path : String) :
    ∃ report,
      (runAll cwd files (before ++ .load path :: later))[before.length]? = some (.loaded report) ∧
      report.reads.Nodup ∧
      report = ConfigTree.load (storeAfter cwd files before).environment.frozen cwd path ∧
      (∀ loaded, report.outcome = .ok loaded → loaded.files = report.reads) ∧
      (∀ e, report.outcome = .error e → ∀ file ∈ report.reads.dropLast,
        ∃ text d, (storeAfter cwd files before).source.answer file 0 = .ok text ∧
          Document.parse text = .ok d) ∧
      ∀ key, (storeAfter cwd files (before ++ [.load path])).get? key =
        ((storeAfter cwd files before).get? key).map fun file =>
          { file with
            taken := file.taken + if ∃ file ∈ report.reads, file.text = key then 1 else 0 } := by
  have haccounted := load_accounted (storeAfter cwd files before).environment cwd path
  refine ⟨_, getElem?_runAll cwd files before (.load path) later, haccounted.nodup,
    load_frozen _ cwd path, haccounted.files_eq, fun e he file hfile => ?_,
    fun key => ?_⟩
  · obtain ⟨members, text, htext, hparse⟩ := haccounted.held e he file hfile
    exact ⟨text, .object members, htext, hparse⟩
  · rw [storeAfter_concat, run]
    dsimp only
    rw [MemoryFiles.get?_advance, count_text haccounted.nodup]

end SessionStep

end ConfigTree
