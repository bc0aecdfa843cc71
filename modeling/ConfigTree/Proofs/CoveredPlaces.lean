import ConfigTree.Proofs.Reordering

/-!
# Which paths a subset depends on

A subset is built path by path, and each insertion looks at what the earlier ones left: it fills a
slot, replaces what stands there, or makes an array longer. Still, nothing of the order in which the
paths come is left in the end, and nothing of the paths that others make redundant. All that counts
are the places that are **covered**, those at or below a path at which the document has something:
where two lists of paths cover the same places, the subsets at them are the same up to the order of
members (`ConfigTree.Document.subset_of_covered_places`).

A path that leads to nothing is passed over (`ConfigTree.Document.subset_found`). For the others,
both subsets mirror the document along paths with the same cover, and such mirrors are reordered
(`ConfigTree.Document.Reordered.subset`).
-/

namespace ConfigTree

namespace Document

open ValuePath

/-- The paths at which a document has something. -/
def found (d : Document) (paths : List ValuePath) : List ValuePath :=
  paths.filter fun p => (d.find? p).isSome

variable {d : Document} {paths : List ValuePath}

theorem exists_value_of_mem_found {p : ValuePath} (h : p ∈ d.found paths) :
    ∃ value, d.find? p = some value :=
  Option.isSome_iff_exists.1 (List.mem_filter.1 h).2

/-- **Paths that lead to nothing** have no effect on a subset. -/
theorem subset_found (d : Document) (paths : List ValuePath) :
    d.subset (d.found paths) = d.subset paths := by
  rw [subset, subset, found, List.foldl_filter]
  congr
  funext slot p
  cases d.find? p <;> rfl

/-- **A subset depends on the places that its paths cover**, and on nothing else. Two lists of
paths, in any order, with repeats, with paths below others and with paths that lead to nothing, give
subsets that are equal up to the order of members if the same places of the document are at or below
those that lead to something. The paths that lead to nothing have no effect at all. -/
theorem subset_of_covered_places (hd : d.Distinct) :
    (∀ paths paths', (∀ q value, d.find? q = some value →
        (Covered (d.found paths) q ↔ Covered (d.found paths') q)) →
      (d.subset paths).Reordered (d.subset paths')) ∧
    ∀ paths, d.subset (d.found paths) = d.subset paths := by
  refine ⟨fun paths paths' h => ?_, subset_found d⟩
  have hcover : SameCover d (d.found paths) (d.found paths') :=
    ⟨fun _ => exists_value_of_mem_found, fun _ => exists_value_of_mem_found, h⟩
  have hsubset := (Reordered.refl d).subset hd hcover hcover.found'
  rwa [subset_found, subset_found] at hsubset

/-- An item after something in it and an object, in the other order, once more, and a path to
nothing: the members of the subset come in another order, and the array has the same items. -/
theorem subset_of_redundant_paths :
    ∃ (d : Document) (paths paths' : List ValuePath), d.Distinct ∧
      (∀ q value, d.find? q = some value →
        (Covered (d.found paths) q ↔ Covered (d.found paths') q)) ∧
      (d.subset paths).Reordered (d.subset paths') ∧
      d.subset paths = .object [("list", .array [.null, .object [("k", .array [])]]),
        ("o", .object [])] ∧
      d.subset paths' = .object [("o", .object []),
        ("list", .array [.null, .object [("k", .array [])]])] := by
  let d : Document := .object [("o", .object []), ("secret", .null),
    ("list", .array [.scalar (.bool true), .object [("k", .array [])], .null])]
  let item : ValuePath := [.key "list", .index 1]
  let paths : List ValuePath := [item, [.key "o"]]
  let paths' : List ValuePath :=
    [[.key "o"], item ++ [.key "k"], [.key "list", .index 7], item, [.key "o"]]
  have hd : d.Distinct := by
    simp [d, null, Distinct, DistinctItems, DistinctMembers, Members.Distinct, Members.keys]
  have hcover : ∀ q value, d.find? q = some value →
      (Covered (d.found paths) q ↔ Covered (d.found paths') q) := by
    intro q value _
    have hfound : d.found paths = paths := by decide
    have hfound' : d.found paths' = [[.key "o"], item ++ [.key "k"], item, [.key "o"]] := by decide
    -- what is below `k` is below the item
    have hbelow : item ++ [.key "k"] <+: q → item <+: q := (List.prefix_append item _).trans
    simp only [Covered, hfound, hfound', paths, List.mem_cons, List.not_mem_nil, or_false,
      exists_eq_or_imp, exists_eq_left]
    tauto
  obtain ⟨hsubset, -⟩ := subset_of_covered_places hd
  exact ⟨d, paths, paths', hd, hcover, hsubset paths paths' hcover, by decide, by decide⟩

end Document

end ConfigTree
