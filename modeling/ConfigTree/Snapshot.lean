import ConfigTree.Load

/-!
# Snapshots

A snapshot holds what reads of some paths gave. As a source it gives each of these paths
the same answer every time, and no text for any other path. A load over a snapshot shows
in its reads which path the snapshot lacks (`ConfigTree.Snapshot.missing?`); where it lacks
none, the load never asked for more than the snapshot holds.
-/

namespace ConfigTree

/-- What reads of some paths gave. -/
abbrev Snapshot := List (FilePath × Except ReadError String)

namespace Snapshot

/-- What the read of a path gave, if it is in the snapshot. -/
def find? (snapshot : Snapshot) (path : FilePath) : Option (Except ReadError String) :=
  (List.find? (fun entry => entry.1 = path) snapshot).map Prod.snd

/-- The error for a path that is not in the snapshot. -/
def absent : ReadError := ⟨.notFound, "no such file"⟩

/-- **The snapshot as a source.** -/
def source (snapshot : Snapshot) : Source where
  answer path _ := (snapshot.find? path).getD (.error absent)
  finite := by
    refine ⟨snapshot.map Prod.fst, fun path _ text h => ?_⟩
    cases hf : snapshot.find? path with
    | none => simp [hf] at h
    | some answer =>
      obtain ⟨entry, hentry, -⟩ := Option.map_eq_some_iff.1 hf
      have hpath : entry.1 = path := by simpa using List.find?_some hentry
      exact hpath ▸ List.mem_map_of_mem (List.mem_of_find?_eq_some hentry)

/-- The first of some paths that is not in the snapshot. -/
def missing? (snapshot : Snapshot) (reads : List FilePath) : Option FilePath :=
  reads.find? fun path => (snapshot.find? path).isNone

end Snapshot

end ConfigTree
