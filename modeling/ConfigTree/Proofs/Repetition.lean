import ConfigTree.Proofs.Associativity
import ConfigTree.Proofs.Precedence
import ConfigTree.Proofs.Reordering

/-!
# Repeated layers

A tree that is merged twice counts only once. Directly after itself it changes nothing at all
(`ConfigTree.Marked.merge_self`), so that such repetitions can be left out of a chain
(`ConfigTree.Stutters`) and the merge is the same. With other trees in between, what counts is the
last time, and the times before it decide only on the order of members: if trees that come again
later are dropped from a chain (`ConfigTree.DropsEarlier`), the merge is the same up to this order.

The second fact is about two bases that differ by what a later tree brings again. It says that they
still merge alike with this tree when another tree is put between
(`ConfigTree.Marked.Reordered.merge_between`), whatever that one replaces.
-/

namespace ConfigTree

/-! ### Repetitions in lists -/

section Lists

variable {α β : Type} {xs ys : List α}

/-- **The first list repeats items of the second** directly after themselves. -/
inductive Stutters {α : Type} : List α → List α → Prop
  | nil : Stutters [] []
  | keep {xs ys : List α} (x : α) : Stutters xs ys → Stutters (x :: xs) (x :: ys)
  | again {xs ys : List α} {x : α} : Stutters (x :: xs) ys → Stutters (x :: x :: xs) ys

/-- **The second list drops items of the first** that come again later in it. -/
inductive DropsEarlier {α : Type} : List α → List α → Prop
  | nil : DropsEarlier [] []
  | keep {xs ys : List α} (x : α) : DropsEarlier xs ys → DropsEarlier (x :: xs) (x :: ys)
  | drop {xs ys : List α} {x : α} : x ∈ xs → DropsEarlier xs ys → DropsEarlier (x :: xs) ys

theorem Stutters.refl (xs : List α) : Stutters xs xs := by
  induction xs with
  | nil => exact .nil
  | cons x xs ih => exact .keep x ih

theorem DropsEarlier.refl (xs : List α) : DropsEarlier xs xs := by
  induction xs with
  | nil => exact .nil
  | cons x xs ih => exact .keep x ih

/-- A direct repetition is dropped by its first occurrence. -/
theorem Stutters.dropsEarlier (h : Stutters xs ys) : DropsEarlier xs ys := by
  induction h with
  | nil => exact .nil
  | keep x _ ih => exact .keep x ih
  | again _ ih => exact .drop List.mem_cons_self ih

theorem Stutters.map (f : α → β) (h : Stutters xs ys) : Stutters (xs.map f) (ys.map f) := by
  induction h with
  | nil => exact .nil
  | keep x _ ih => exact .keep (f x) ih
  | again _ ih => exact .again ih

theorem DropsEarlier.map (f : α → β) (h : DropsEarlier xs ys) :
    DropsEarlier (xs.map f) (ys.map f) := by
  induction h with
  | nil => exact .nil
  | keep x _ ih => exact .keep (f x) ih
  | drop hmem _ ih => exact .drop (List.mem_map_of_mem hmem) ih

/-- No item is dropped altogether. -/
theorem DropsEarlier.mem_iff (h : DropsEarlier xs ys) {x : α} : x ∈ xs ↔ x ∈ ys := by
  induction h with
  | nil => rfl
  | keep first _ ih => rw [List.mem_cons, List.mem_cons, ih]
  | drop hmem _ ih =>
    rw [List.mem_cons, ← ih]
    exact or_iff_right_of_imp fun heq => heq ▸ hmem

theorem DropsEarlier.eq_nil_iff (h : DropsEarlier xs ys) : xs = [] ↔ ys = [] := by
  simp only [List.eq_nil_iff_forall_not_mem, h.mem_iff]

end Lists

namespace Marked

variable {a b t t' base : Marked} {trees trees' : List Marked}

/-! ### Merging the same again -/

/-- **Merging a tree into itself** changes nothing. -/
theorem merge_self (h : t.Distinct) : t.merge t = t := by
  induction t using Marked.induction with
  | scalar s => rw [scalar_merge]
  | array items => rw [array_merge]
  | object members ih =>
    obtain ⟨hdistinct, hparts⟩ := distinct_object_iff.1 h
    rw [merge_object]
    refine congrArg _ (Members.ext_get? (distinct_mergeMembers hdistinct hdistinct) ?_ fun key => ?_)
    · rw [keys_mergeMembers, List.filter_eq_nil_iff.2 fun key hkey => ?_, List.append_nil]
      simp [Members.has_iff.2 hkey]
    · rw [get?_mergeMembers]
      rcases hget : Members.get? members key with _ | entry
      · rfl
      · have hsame := ih (key, entry) (Members.mem_of_get? hget) (hparts key entry hget)
        exact congrArg some (Prod.ext (Bool.or_self _) hsame)

/-- A tree changes nothing when it has just been merged. -/
theorem merge_merge_self (ha : a.Distinct) (ht : t.Distinct) :
    (a.merge t).merge t = a.merge t := by
  rw [merge_assoc ha ht ht (Document.not_interrupted_right _ _), merge_self ht]

/-- Merging what a tree has become back into it gives the same again. -/
theorem merge_merge_left (ha : a.Distinct) (ht : t.Distinct) :
    a.merge (a.merge t) = a.merge t := by
  rw [← merge_assoc ha ha ht (Document.not_interrupted_left _ _), merge_self ha]

/-! ### Chains -/

/-- A chain begins with nothing, or with what its first tree replaces. -/
theorem mergeAll_eq_foldl (h : trees ≠ []) :
    mergeAll trees = trees.foldl merge (.scalar .null) := by
  obtain ⟨first, rest, rfl⟩ := List.exists_cons_of_ne_nil h
  rw [mergeAll, List.foldl_cons, scalar_merge]

theorem Distinct.foldl (hbase : base.Distinct) (h : ∀ t ∈ trees, t.Distinct) :
    (trees.foldl Marked.merge base).Distinct := by
  induction trees generalizing base with
  | nil => exact hbase
  | cons t trees ih =>
    obtain ⟨ht, hrest⟩ := List.forall_mem_cons.1 h
    exact ih (hbase.merge ht) hrest

/-- **Direct repetitions change nothing** in a chain. -/
theorem foldl_merge_of_stutters (h : Stutters trees trees') (hbase : base.Distinct)
    (hdistinct : ∀ t ∈ trees, t.Distinct) :
    trees.foldl merge base = trees'.foldl merge base := by
  induction h generalizing base with
  | nil => rfl
  | keep t _ ih =>
    obtain ⟨ht, hrest⟩ := List.forall_mem_cons.1 hdistinct
    exact ih (hbase.merge ht) hrest
  | again _ ih =>
    obtain ⟨ht, hrest⟩ := List.forall_mem_cons.1 hdistinct
    rw [← ih hbase hrest, List.foldl_cons, List.foldl_cons, List.foldl_cons,
      merge_merge_self hbase ht]

/-- What holds of all chains from some base on holds of chains by themselves. -/
theorem mergeAll_rel {R : Marked → Marked → Prop} (hnil : trees = [] ↔ trees' = [])
    (hrefl : R (.object []) (.object []))
    (h : R (trees.foldl merge (.scalar .null)) (trees'.foldl merge (.scalar .null))) :
    R (mergeAll trees) (mergeAll trees') := by
  by_cases hempty : trees = []
  · rw [hempty, hnil.1 hempty]
    exact hrefl
  · rwa [mergeAll_eq_foldl hempty, mergeAll_eq_foldl (mt hnil.2 hempty)]

/-- **Trees that follow directly after equal ones** change nothing. -/
theorem mergeAll_of_stutters (h : Stutters trees trees') (hdistinct : ∀ t ∈ trees, t.Distinct) :
    mergeAll trees = mergeAll trees' :=
  mergeAll_rel h.dropsEarlier.eq_nil_iff rfl (foldl_merge_of_stutters h trivial hdistinct)

/-! ### What comes again later -/

theorem Distinct.members (h : t.Distinct) : (object t.members).Distinct := by
  cases t with
  | object members => exact h
  | scalar s => exact distinct_object_iff.2 ⟨List.nodup_nil, nofun⟩
  | array items => exact distinct_object_iff.2 ⟨List.nodup_nil, nofun⟩

/-- Under an object, what is no object counts as one without members. -/
theorem merge_object_right (base : Marked) (layer : Members (Bool × Marked)) :
    base.merge (.object layer) = .object (mergeMembers base.members layer) := by
  cases base with
  | object inner => exact merge_object inner layer
  | scalar s => rw [scalar_merge, show (scalar s).members = [] from rfl, mergeMembers_nil]
  | array items => rw [array_merge, show (array items).members = [] from rfl, mergeMembers_nil]

/-- Under an entry, nothing counts as an entry that is replaced. -/
theorem mergeEntries_some (entry : Option (Bool × Marked)) (layer : Bool × Marked) :
    mergeEntries entry (some layer) =
      some (mergeEntry (entry.getD (false, .scalar .null)) layer) := by
  cases entry with
  | some entry => rfl
  | none => exact congrArg some (Prod.ext (Bool.false_or _).symm (scalar_merge .null layer.2).symm)

section Entries

variable {x y between top : Option (Bool × Marked)} (hx : ∀ entry ∈ x, entry.2.Distinct)
  (hy : ∀ entry ∈ y, entry.2.Distinct) (hbetween : ∀ entry ∈ between, entry.2.Distinct)

include hx hy hbetween

/-- Entries merge alike with the one on top when another one is put between, if their trees do. -/
theorem rel_mergeEntries_between
    (h : Option.Rel (SameMark Reordered) (mergeEntries x top) (mergeEntries y top))
    (htop : ∀ entry ∈ top, ∀ {a b t : Marked}, a.Distinct → b.Distinct → t.Distinct →
      Reordered (a.merge entry.2) (b.merge entry.2) →
        Reordered ((a.merge t).merge entry.2) ((b.merge t).merge entry.2)) :
    Option.Rel (SameMark Reordered) (mergeEntries (mergeEntries x between) top)
      (mergeEntries (mergeEntries y between) top) := by
  rcases top with _ | last
  · simp only [mergeEntries_none_right] at h ⊢
    refine rel_mergeEntries h ?_ fun b hb l hl _ _ hnode hother => ?_
    · rcases between with _ | entry
      · exact .none
      · exact .some ⟨.refl entry.2⟩
    · exact hnode.merge hother (hx b hb) (hbetween l hl)
  rcases between with _ | middle
  · simpa only [mergeEntries_none_right] using h
  have hblank {z : Option (Bool × Marked)} (hz : ∀ entry ∈ z, entry.2.Distinct) :
      (z.getD (false, .scalar .null)).2.Distinct := by
    rcases z with _ | entry
    · trivial
    · exact hz entry rfl
  rw [mergeEntries_some, mergeEntries_some] at h
  rw [mergeEntries_some x, mergeEntries_some y, mergeEntries_some, mergeEntries_some]
  obtain ⟨hmark, hnode⟩ : _ = _ ∧ Reordered _ _ := by
    cases h with
    | some hsame => exact sameMark_iff.1 hsame
  refine .some (sameMark_iff.2 ⟨?_, ?_⟩)
  · simp only [mergeEntry, Option.getD_some] at hmark ⊢
    rw [Bool.or_right_comm, hmark, Bool.or_right_comm]
  · exact htop last rfl (hblank hx) (hblank hy) (hbetween middle rfl) hnode

end Entries

/-- **What a later tree brings again may be replaced before**: bases that merge alike with it still
do so when another tree is put between. -/
theorem Reordered.merge_between {between : Marked} (h : Reordered (a.merge t) (b.merge t))
    (ha : a.Distinct) (hb : b.Distinct) (hbetween : between.Distinct) (ht : t.Distinct) :
    Reordered ((a.merge between).merge t) ((b.merge between).merge t) := by
  induction t using Marked.induction generalizing a b between with
  | scalar s =>
    rw [merge_scalar, merge_scalar]
    exact .refl _
  | array items =>
    rw [merge_array, merge_array]
    exact .refl _
  | object top ih =>
    rcases between with s | items | middle
    · rw [merge_scalar, merge_scalar]
      exact .refl _
    · rw [merge_array, merge_array]
      exact .refl _
    have ha' := ha.members
    have hb' := hb.members
    rw [distinct_object_iff] at ha' hb' hbetween ht
    simp only [merge_object_right, members_object] at h ⊢
    rw [reordered_object_iff, Members.permutes_iff_get? (distinct_mergeMembers ha'.1 ht.1)
      (distinct_mergeMembers hb'.1 ht.1)] at h
    rw [reordered_object_iff, Members.permutes_iff_get?
      (distinct_mergeMembers (distinct_mergeMembers ha'.1 hbetween.1) ht.1)
      (distinct_mergeMembers (distinct_mergeMembers hb'.1 hbetween.1) ht.1)]
    intro key
    have hkey := h key
    simp only [get?_mergeMembers] at hkey ⊢
    refine rel_mergeEntries_between (ha'.2 key) (hb'.2 key) (hbetween.2 key) hkey ?_
    exact fun entry hentry _ _ _ ha hb hbetween h =>
      ih (key, entry) (Members.mem_of_get? hentry) h ha hb hbetween (ht.2 key entry hentry)

/-- So they do when many trees are put between. -/
theorem Reordered.foldl_between (h : Reordered (a.merge t) (b.merge t)) (ha : a.Distinct)
    (hb : b.Distinct) (hdistinct : ∀ t ∈ trees, t.Distinct) (ht : t.Distinct) :
    Reordered ((trees.foldl Marked.merge a).merge t) ((trees.foldl Marked.merge b).merge t) := by
  induction trees generalizing a b with
  | nil => exact h
  | cons between trees ih =>
    obtain ⟨hbetween, hrest⟩ := List.forall_mem_cons.1 hdistinct
    exact ih (h.merge_between ha hb hbetween ht) (ha.merge hbetween) (hb.merge hbetween) hrest

/-- Chains of the same trees keep their bases reordered. -/
theorem Reordered.foldl (h : Reordered a b) (ha : a.Distinct) (hdistinct : ∀ t ∈ trees, t.Distinct) :
    Reordered (trees.foldl Marked.merge a) (trees.foldl Marked.merge b) := by
  induction trees generalizing a b with
  | nil => exact h
  | cons t trees ih =>
    obtain ⟨ht, hrest⟩ := List.forall_mem_cons.1 hdistinct
    exact ih (h.merge (.refl t) ha ht) (ha.merge ht) hrest

/-- **A tree that comes again later** leaves nothing but the order of members. -/
theorem reordered_foldl_of_mem (hmem : t ∈ trees) (hbase : base.Distinct)
    (hdistinct : ∀ t ∈ trees, t.Distinct) :
    Reordered (trees.foldl merge (base.merge t)) (trees.foldl merge base) := by
  have ht := hdistinct t hmem
  obtain ⟨before, after, rfl⟩ := List.append_of_mem hmem
  obtain ⟨hbefore, hlater⟩ := List.forall_mem_append.1 hdistinct
  obtain ⟨-, hafter⟩ := List.forall_mem_cons.1 hlater
  have hagain : Reordered ((base.merge t).merge t) (base.merge t) := by
    rw [merge_merge_self hbase ht]
    exact .refl _
  simp only [List.foldl_append, List.foldl_cons]
  exact (hagain.foldl_between (hbase.merge ht) hbase hbefore ht).foldl
    (((hbase.merge ht).foldl hbefore).merge ht) hafter

/-- **Dropping what comes again later** keeps a chain up to the order of members. -/
theorem reordered_foldl_of_dropsEarlier (h : DropsEarlier trees trees') (hbase : base.Distinct)
    (hdistinct : ∀ t ∈ trees, t.Distinct) :
    Reordered (trees.foldl merge base) (trees'.foldl merge base) := by
  induction h generalizing base with
  | nil => exact .refl _
  | keep t _ ih =>
    obtain ⟨ht, hrest⟩ := List.forall_mem_cons.1 hdistinct
    exact ih (hbase.merge ht) hrest
  | drop hmem _ ih =>
    obtain ⟨-, hrest⟩ := List.forall_mem_cons.1 hdistinct
    exact (reordered_foldl_of_mem hmem hbase hrest).trans (ih hbase hrest)

/-- **Trees that come again later** can be dropped, up to the order of members. -/
theorem reordered_mergeAll_of_dropsEarlier (h : DropsEarlier trees trees')
    (hdistinct : ∀ t ∈ trees, t.Distinct) : Reordered (mergeAll trees) (mergeAll trees') :=
  mergeAll_rel h.eq_nil_iff (.refl _) (reordered_foldl_of_dropsEarlier h trivial hdistinct)

end Marked

end ConfigTree
