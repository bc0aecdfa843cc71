import ConfigTree.Marked.Merge
import ConfigTree.Proofs.Marks

/-!
# What merging keeps

Merging is a lookup-wise operation: what the merge holds one step below it is the merge of
what its two sides hold there (`ConfigTree.Marked.get?_mergeMembers`). It keeps keys
distinct (`ConfigTree.Marked.Distinct.merge`) and commutes with forgetting the marks
(`ConfigTree.Marked.plain_merge`), so that on documents the rule by way of unmarked trees
and the recursion agree (`ConfigTree.Document.overlay_eq_merge`).
-/

namespace ConfigTree

namespace Marked

/-! ### Merges that replace -/

@[simp] theorem scalar_merge (s : Scalar) (layer : Marked) : (scalar s).merge layer = layer :=
  merge_of_not_object (by simp)

@[simp] theorem array_merge (items : List Marked) (layer : Marked) :
    (array items).merge layer = layer :=
  merge_of_not_object (by simp)

@[simp] theorem merge_scalar (base : Marked) (s : Scalar) : base.merge (scalar s) = scalar s :=
  merge_of_not_object (by simp)

@[simp] theorem merge_array (base : Marked) (items : List Marked) :
    base.merge (array items) = array items :=
  merge_of_not_object (by simp)

/-- Over an object without members, the overlay is all there is. -/
theorem mergeMembers_nil (layer : Members (Bool × Marked)) : mergeMembers [] layer = layer := by
  rw [mergeMembers, mergeShared, List.nil_append]
  exact List.filter_eq_self.2 fun _ _ => rfl

/-! ### Lookup in a merge -/

/-- The merge of two entries: it is marked if either of them is. -/
def mergeEntry (base layer : Bool × Marked) : Bool × Marked :=
  (base.1 || layer.1, base.2.merge layer.2)

/-- What a merge holds under a key, from what its two sides hold there. -/
def mergeEntries : Option (Bool × Marked) → Option (Bool × Marked) → Option (Bool × Marked)
  | some base, some layer => some (mergeEntry base layer)
  | some entry, none => some entry
  | none, entry => entry

@[simp] theorem mergeEntries_none_left (entry : Option (Bool × Marked)) :
    mergeEntries none entry = entry := by
  cases entry <;> rfl

@[simp] theorem mergeEntries_none_right (entry : Option (Bool × Marked)) :
    mergeEntries entry none = entry := by
  cases entry <;> rfl

theorem mergeShared_cons (key : String) (entry : Bool × Marked)
    (rest layer : Members (Bool × Marked)) :
    ∃ merged, mergeEntries (some entry) (layer.get? key) = some merged ∧
      mergeShared ((key, entry) :: rest) layer = (key, merged) :: mergeShared rest layer := by
  obtain ⟨marked, node⟩ := entry
  rw [mergeShared]
  cases layer.get? key with
  | none => exact ⟨_, rfl, rfl⟩
  | some entry => exact ⟨_, rfl, rfl⟩

theorem keys_mergeShared (base layer : Members (Bool × Marked)) :
    Members.keys (mergeShared base layer) = base.keys := by
  induction base with
  | nil => rw [mergeShared]
  | cons member rest ih =>
    obtain ⟨key, entry⟩ := member
    obtain ⟨merged, -, h⟩ := mergeShared_cons key entry rest layer
    rw [h]
    exact congrArg (key :: ·) ih

/-- The keys of a merge: those of the base, then those of the overlay alone. -/
theorem keys_mergeMembers (base layer : Members (Bool × Marked)) :
    (mergeMembers base layer).keys = base.keys ++ layer.keys.filter fun key => !base.has key := by
  rw [mergeMembers, Members.keys, List.map_append, ← Members.keys, keys_mergeShared, Members.keys,
    Members.keys, List.filter_map]
  rfl

theorem get?_mergeShared (base layer : Members (Bool × Marked)) (key : String)
    (h : key ∈ base.keys) :
    Members.get? (mergeShared base layer) key =
      mergeEntries (base.get? key) (layer.get? key) := by
  induction base with
  | nil => simp [Members.keys] at h
  | cons member rest ih =>
    obtain ⟨name, entry⟩ := member
    obtain ⟨merged, hmerged, heq⟩ := mergeShared_cons name entry rest layer
    rw [heq, Members.get?_cons, Members.get?_cons]
    by_cases hname : name = key
    · subst hname
      rw [if_pos rfl, if_pos rfl, hmerged]
    · rw [if_neg hname, if_neg hname]
      exact ih ((List.mem_cons.1 h).resolve_left (Ne.symm hname))

theorem get?_filter_has (base layer : Members (Bool × Marked)) (key : String) :
    Members.get? (layer.filter fun member => !base.has member.1) key =
      if base.has key then none else layer.get? key := by
  induction layer with
  | nil => simp
  | cons member rest ih =>
    obtain ⟨name, entry⟩ := member
    by_cases hname : name = key
    · subst hname
      by_cases hbase : base.has name = true <;> simp [Members.get?_cons, hbase, ih]
    · by_cases hbase : base.has name = true <;>
        simp [Members.get?_cons, hbase, hname, ih]

/-- **What a merge holds under a key** is the merge of what its two sides hold there. -/
theorem get?_mergeMembers (base layer : Members (Bool × Marked)) (key : String) :
    (mergeMembers base layer).get? key = mergeEntries (base.get? key) (layer.get? key) := by
  rw [mergeMembers, Members.get?_append, get?_filter_has]
  by_cases hkey : key ∈ base.keys
  · rw [get?_mergeShared base layer key hkey, if_pos (Members.has_iff.2 hkey), Option.or_none]
  · rw [Members.get?_eq_none_iff.2 (keys_mergeShared base layer ▸ hkey), Option.none_or,
      if_neg (mt Members.has_iff.1 hkey), Members.get?_eq_none_iff.2 hkey, mergeEntries_none_left]

/-! ### Merges of overlays without a common key -/

theorem mergeShared_append (base more layer : Members (Bool × Marked)) :
    mergeShared (base ++ more) layer = mergeShared base layer ++ mergeShared more layer := by
  induction base with
  | nil => rw [mergeShared]; rfl
  | cons member rest ih =>
    obtain ⟨key, marked, node⟩ := member
    rw [List.cons_append, mergeShared, mergeShared, ih, List.cons_append]

/-- Members are left alone by an overlay without any of their keys. -/
theorem mergeShared_of_disjoint {base layer : Members (Bool × Marked)}
    (h : ∀ key ∈ base.keys, key ∉ layer.keys) : mergeShared base layer = base := by
  induction base with
  | nil => rw [mergeShared]
  | cons member rest ih =>
    obtain ⟨key, marked, node⟩ := member
    obtain ⟨hkey, hrest⟩ := List.forall_mem_cons.1 h
    rw [mergeShared, Members.get?_eq_none_iff.2 hkey, ih hrest]

theorem mergeShared_mergeShared {base layer top : Members (Bool × Marked)}
    (h : ∀ key ∈ layer.keys, key ∉ top.keys) :
    mergeShared (mergeShared base layer) top = mergeShared base (layer ++ top) := by
  induction base with
  | nil => rw [mergeShared, mergeShared, mergeShared]
  | cons member rest ih =>
    obtain ⟨key, marked, node⟩ := member
    rw [mergeShared, mergeShared, mergeShared, ih, Members.get?_append]
    rcases hlayer : layer.get? key with _ | entry
    · rw [Option.none_or]
    · have hkey : key ∈ layer.keys := List.mem_map_of_mem (Members.mem_of_get? hlayer)
      rw [Option.some_or, Members.get?_eq_none_iff.2 (h key hkey)]

theorem mergeMembers_nil_right (base : Members (Bool × Marked)) : mergeMembers base [] = base := by
  rw [mergeMembers, mergeShared_of_disjoint (by simp [Members.keys]), List.filter_nil,
    List.append_nil]

/-- **Two overlays without a common key** are one overlay. -/
theorem mergeMembers_append {base layer top : Members (Bool × Marked)}
    (h : ∀ key ∈ layer.keys, key ∉ top.keys) :
    mergeMembers (mergeMembers base layer) top = mergeMembers base (layer ++ top) := by
  have hlayer : mergeShared (layer.filter fun member => !base.has member.1) top =
      layer.filter fun member => !base.has member.1 := by
    refine mergeShared_of_disjoint fun key hkey => h key ?_
    obtain ⟨member, hmember, rfl⟩ := List.mem_map.1 hkey
    exact List.mem_map_of_mem (List.mem_filter.1 hmember).1
  have htop : (top.filter fun member => !(mergeMembers base layer).has member.1) =
      top.filter fun member => !base.has member.1 := by
    refine List.filter_congr fun member hmember => ?_
    have hnew : layer.get? member.1 = none := Members.get?_eq_none_iff.2 fun hkey =>
      h _ hkey (List.mem_map_of_mem hmember)
    rw [Members.has, Members.has, get?_mergeMembers, hnew, mergeEntries_none_right]
  rw [mergeMembers, htop, mergeMembers, mergeShared_append, mergeShared_mergeShared h, hlayer,
    mergeMembers, List.filter_append, List.append_assoc]

/-! ### Distinct keys -/

theorem distinct_object_iff {members : Members (Bool × Marked)} :
    (object members).Distinct ↔
      members.Distinct ∧ ∀ key entry, members.get? key = some entry → entry.2.Distinct := by
  rw [Distinct, distinctMembers_iff]
  refine and_congr_right fun hkeys => ⟨fun h key entry hentry => ?_, fun h member hmember => ?_⟩
  · exact h _ (Members.mem_of_get? hentry)
  · exact h member.1 member.2 (Members.get?_of_mem hkeys hmember)

theorem distinct_mergeMembers {base layer : Members (Bool × Marked)} (hbase : base.Distinct)
    (hlayer : layer.Distinct) : (mergeMembers base layer).Distinct := by
  rw [Members.Distinct, keys_mergeMembers]
  refine List.nodup_append.2 ⟨hbase, hlayer.filter _, ?_⟩
  rintro key hkey other hmem rfl
  rw [List.mem_filter, Members.has_iff.2 hkey] at hmem
  simp at hmem

/-- **Merging keeps keys distinct.** -/
theorem Distinct.merge {base layer : Marked} (hbase : base.Distinct) (hlayer : layer.Distinct) :
    (base.merge layer).Distinct := by
  induction base using Marked.induction generalizing layer with
  | scalar s => rwa [scalar_merge]
  | array items => rwa [array_merge]
  | object base ih =>
    rcases layer with s | items | layer
    · rwa [merge_scalar]
    · rwa [merge_array]
    · rw [distinct_object_iff] at hbase hlayer
      rw [merge_object, distinct_object_iff]
      refine ⟨distinct_mergeMembers hbase.1 hlayer.1, fun key entry hentry => ?_⟩
      rw [get?_mergeMembers] at hentry
      rcases hb : Members.get? base key with _ | ⟨marked, node⟩ <;>
        rcases hl : Members.get? layer key with _ | ⟨marked', node'⟩ <;>
        simp only [hb, hl, mergeEntries, reduceCtorEq, Option.some.injEq] at hentry <;>
        subst hentry
      · exact hlayer.2 key _ hl
      · exact hbase.2 key _ hb
      · exact ih (key, marked, node) (Members.mem_of_get? hb) (hbase.2 key _ hb)
          (hlayer.2 key _ hl)

/-! ### Forgetting the marks -/

mutual

/-- A tree in which nothing is marked is its document. -/
theorem plain_ofDocument : ∀ d, (ofDocument d).plain = d
  | .scalar s => by rw [ofDocument, plain]
  | .array items => by rw [ofDocument, plain, plainItems_ofItems items]
  | .object members => by rw [ofDocument, plain, plainMembers_ofMembers members]

theorem plainItems_ofItems : ∀ items, plainItems (ofItems items) = items
  | [] => by rw [ofItems, plainItems]
  | item :: rest => by rw [ofItems, plainItems, plain_ofDocument item, plainItems_ofItems rest]

theorem plainMembers_ofMembers : ∀ members, plainMembers (ofMembers members) = members
  | [] => by rw [ofMembers, plainMembers]
  | (key, value) :: rest => by
    rw [ofMembers, plainMembers, plain_ofDocument value, plainMembers_ofMembers rest]

end

theorem ofItems_eq_map (items : List Document) : ofItems items = items.map ofDocument := by
  induction items with
  | nil => rw [ofItems, List.map_nil]
  | cons item rest ih => rw [ofItems, ih, List.map_cons]

mutual

/-- Nothing is marked in the tree of a document. -/
theorem publicPaths_ofDocument : ∀ d, (ofDocument d).publicPaths = []
  | .scalar s => by rw [ofDocument, publicPaths]
  | .array items => by rw [ofDocument, publicPaths, itemPaths_ofItems 0 items]
  | .object members => by rw [ofDocument, publicPaths, memberPaths_ofMembers members]

theorem itemPaths_ofItems : ∀ i items, itemPaths i (ofItems items) = []
  | _, [] => by rw [ofItems, itemPaths]
  | i, item :: rest => by
    rw [ofItems, itemPaths, publicPaths_ofDocument item, itemPaths_ofItems (i + 1) rest,
      List.map_nil, List.append_nil]

theorem memberPaths_ofMembers : ∀ members, memberPaths (ofMembers members) = []
  | [] => by rw [ofMembers, memberPaths]
  | (key, value) :: rest => by
    rw [ofMembers, memberPaths_cons, entryPaths, publicPaths_ofDocument value,
      memberPaths_ofMembers rest, List.map_nil, List.append_nil]

end

end Marked

theorem Document.merge_of_not_object {base layer : Document}
    (h : ∀ b o, base = .object b → layer ≠ .object o) : base.merge layer = layer := by
  cases base <;> cases layer <;> simp_all [merge]

namespace Marked

theorem plainMembers_eq_map (members : Members (Bool × Marked)) :
    plainMembers members = members.map fun member => (member.1, member.2.2.plain) := by
  induction members with
  | nil => rw [plainMembers, List.map_nil]
  | cons member rest ih => rw [plainMembers, ih, List.map_cons]

/-- Forgetting the marks keeps keys distinct. -/
theorem Distinct.plain {t : Marked} (h : t.Distinct) : t.plain.Distinct := by
  induction t using Marked.induction with
  | scalar s =>
    rw [Marked.plain]
    trivial
  | array items ih =>
    rw [Distinct, distinctItems_iff] at h
    rw [Marked.plain, plainItems_eq_map, Document.Distinct, Document.distinctItems_iff,
      List.forall_mem_map]
    exact fun item hitem => ih item hitem (h item hitem)
  | object members ih =>
    rw [Distinct, distinctMembers_iff] at h
    rw [plain_object, Document.Distinct, Document.distinctMembers_iff, Members.Distinct,
      keys_plainMembers, plainMembers_eq_map, List.forall_mem_map]
    exact ⟨h.1, fun member hmember => ih member hmember (h.2 member hmember)⟩

theorem has_plainMembers (members : Members (Bool × Marked)) (key : String) :
    Members.has (plainMembers members) key = members.has key := by
  rw [Members.has, Members.has, get?_plainMembers, Option.isSome_map]

theorem plainMembers_mergeShared {base layer : Members (Bool × Marked)}
    (h : ∀ member ∈ base, ∀ layer, (member.2.2.merge layer).plain =
      member.2.2.plain.merge layer.plain) :
    plainMembers (mergeShared base layer) =
      Document.mergeShared (plainMembers base) (plainMembers layer) := by
  induction base with
  | nil => rw [mergeShared, plainMembers, Document.mergeShared]
  | cons member rest ih =>
    obtain ⟨key, marked, node⟩ := member
    obtain ⟨hfirst, hrest⟩ := List.forall_mem_cons.1 h
    rw [mergeShared]
    rcases hlayer : layer.get? key with _ | ⟨marked', node'⟩
    · simp only [plainMembers, Document.mergeShared, get?_plainMembers, hlayer, Option.map_none,
        ih hrest]
    · simp only [plainMembers, Document.mergeShared, get?_plainMembers, hlayer, Option.map_some,
        ih hrest, hfirst node']

/-- **Merging commutes with forgetting the marks.** -/
theorem plain_merge (base layer : Marked) :
    (base.merge layer).plain = base.plain.merge layer.plain := by
  induction base using Marked.induction generalizing layer with
  | scalar s => rw [scalar_merge, plain, Document.merge_of_not_object (by simp)]
  | array items => rw [array_merge, plain, Document.merge_of_not_object (by simp)]
  | object base ih =>
    rcases layer with s | items | layer
    · rw [merge_scalar, plain, plain, Document.merge_of_not_object (by simp)]
    · rw [merge_array, plain, plain, Document.merge_of_not_object (by simp)]
    · rw [merge_object, plain, plain, plain, Document.merge, ← plainMembers_mergeShared ih,
        mergeMembers]
      simp only [plainMembers_eq_map, List.map_append, List.filter_map, ← has_plainMembers]
      rfl

end Marked

namespace Document

/-- **Two ways to put one document over another** agree. -/
theorem overlay_eq_merge (base layer : Document) : base.overlay layer = base.merge layer := by
  rw [overlay, Marked.plain_merge, Marked.plain_ofDocument, Marked.plain_ofDocument]

end Document

namespace Marked

/-- The merge of two objects, without marks. -/
theorem plain_mergeMembers (base layer : Members (Bool × Marked)) :
    (object (mergeMembers base layer)).plain =
      (object base).plain.overlay (object layer).plain := by
  rw [← merge_object, plain_merge, Document.overlay_eq_merge]

/-- The merge of many objects, without marks. -/
theorem plain_foldl_mergeMembers (trees : List (Members (Bool × Marked)))
    (merged : Members (Bool × Marked)) :
    (object (trees.foldl mergeMembers merged)).plain =
      (trees.map fun tree => (object tree).plain).foldl Document.overlay (object merged).plain := by
  induction trees generalizing merged with
  | nil => rfl
  | cons tree rest ih =>
    rw [List.foldl_cons, ih, plain_mergeMembers, List.map_cons, List.foldl_cons]

/-! ### Entries of a merge -/

theorem mergeEntry_object (base layer : Members (Bool × Marked)) :
    mergeEntry (false, object base) (false, object layer) =
      (false, object (mergeMembers base layer)) := by
  rw [mergeEntry, merge_object, Bool.or_false]

/-- Two objects are merged step by step, anything else is replaced. -/
theorem child?_mergeEntry (base layer : Bool × Marked) (step : Step) :
    (mergeEntry base layer).2.child? step = layer.2.child? step ∨
      (∃ members, layer.2 = .object members) ∧ (mergeEntry base layer).2.child? step =
        mergeEntries (base.2.child? step) (layer.2.child? step) := by
  obtain ⟨marked, base⟩ := base
  obtain ⟨marked', layer⟩ := layer
  rw [mergeEntry]
  rcases base with s | items | base
  · exact Or.inl (by rw [scalar_merge])
  · exact Or.inl (by rw [array_merge])
  · rcases layer with s | items | layer
    · exact Or.inl (by rw [merge_scalar])
    · exact Or.inl (by rw [merge_array])
    · rw [merge_object]
      rcases step with name | i
      · exact Or.inr ⟨⟨layer, rfl⟩, get?_mergeMembers base layer name⟩
      · exact Or.inl rfl

/-- **Where an entry of a merge comes from**: a property that a merge of two entries only has if
one of them has it is had by an entry of either side. -/
theorem follow_mergeEntry {K : Bool × Marked → Prop}
    (hK : ∀ base layer, K (mergeEntry base layer) → K base ∨ K layer)
    {base layer entry : Bool × Marked} {p : ValuePath}
    (h : follow (mergeEntry base layer) p = some entry) (hentry : K entry) :
    (∃ e, follow base p = some e ∧ K e) ∨ ∃ e, follow layer p = some e ∧ K e := by
  induction p generalizing base layer with
  | nil =>
    obtain rfl := Option.some.inj h
    exact (hK base layer hentry).imp (fun hbase => ⟨base, rfl, hbase⟩)
      fun hlayer => ⟨layer, rfl, hlayer⟩
  | cons step rest ih =>
    obtain ⟨next, hnext, hrest⟩ := Option.bind_eq_some_iff.1 h
    simp only [follow_cons]
    rcases child?_mergeEntry base layer step with hlayer | ⟨-, hboth⟩
    · -- where the overlay replaces the base, only its own entries are left
      rw [hlayer] at hnext
      exact Or.inr ⟨entry, by rw [hnext, Option.bind_some, hrest], hentry⟩
    · rw [hboth] at hnext
      rcases hb : base.2.child? step with _ | b <;> rcases hl : layer.2.child? step with _ | l <;>
        simp only [hb, hl, mergeEntries, reduceCtorEq, Option.some.injEq] at hnext <;> subst hnext
      · exact Or.inr ⟨entry, hrest, hentry⟩
      · exact Or.inl ⟨entry, hrest, hentry⟩
      · exact ih hrest

/-- A mark of the overlay is one of the merge. -/
theorem MarkedAt.mergeEntry_right {layer : Bool × Marked} {p : ValuePath} (h : MarkedAt layer p)
    (base : Bool × Marked) : MarkedAt (mergeEntry base layer) p := by
  induction p generalizing base layer with
  | nil =>
    obtain ⟨node, hnode⟩ := h
    obtain rfl := Option.some.inj hnode
    exact ⟨_, congrArg some (Prod.ext (Bool.or_true base.1) rfl)⟩
  | cons step rest ih =>
    obtain ⟨l, hl, hrest⟩ := markedAt_cons_iff.1 h
    rw [markedAt_cons_iff]
    rcases child?_mergeEntry base layer step with hlayer | ⟨-, hboth⟩
    · exact ⟨l, hlayer.trans hl, hrest⟩
    · rw [hboth, hl]
      rcases base.2.child? step with _ | b
      · exact ⟨l, rfl, hrest⟩
      · exact ⟨_, rfl, ih hrest b⟩

/-- Whatever an entry holds above a path is an object. -/
def ObjectsAbove (entry : Bool × Marked) (p : ValuePath) : Prop :=
  ∀ q e, q <+: p → q ≠ p → follow entry q = some e → ∃ members, e.2 = .object members

theorem ObjectsAbove.child {entry next : Bool × Marked} {step : Step} {rest : ValuePath}
    (h : ObjectsAbove entry (step :: rest)) (hnext : entry.2.child? step = some next) :
    ObjectsAbove next rest := by
  intro q e hq hne hfollow
  refine h (step :: q) e (List.cons_prefix_cons.2 ⟨rfl, hq⟩) (by simpa using hne) ?_
  rw [follow_cons, hnext, Option.bind_some, hfollow]

/-- **A mark of the base is one of the merge** if no array or scalar of the overlay replaces what
is above it. -/
theorem MarkedAt.mergeEntry_left {base layer : Bool × Marked} {p : ValuePath} (h : MarkedAt base p)
    (hkeys : ∀ step ∈ p, ∃ name, step = .key name) (hlayer : ObjectsAbove layer p) :
    MarkedAt (mergeEntry base layer) p := by
  induction p generalizing base layer with
  | nil =>
    obtain ⟨node, hnode⟩ := h
    obtain rfl := Option.some.inj hnode
    exact ⟨_, congrArg some (Prod.ext (Bool.true_or layer.1) rfl)⟩
  | cons step rest ih =>
    obtain ⟨⟨name, rfl⟩, hbelow⟩ := List.forall_mem_cons.1 hkeys
    obtain ⟨b, hb, hrest⟩ := markedAt_cons_iff.1 h
    obtain ⟨marked, base⟩ := base
    obtain ⟨marked', layer⟩ := layer
    -- the overlay is an object, as the mark is below it
    obtain ⟨members, rfl⟩ := hlayer [] _ List.nil_prefix (by simp) rfl
    rcases base with s | items | base
    · simp at hb
    · simp [child?] at hb
    · rw [markedAt_cons_iff, mergeEntry, merge_object]
      change ∃ next, (mergeMembers base members).get? name = some next ∧ _
      rw [get?_mergeMembers, show Members.get? base name = some b from hb]
      rcases hl : Members.get? members name with _ | l
      · exact ⟨b, rfl, hrest⟩
      · exact ⟨_, rfl, ih hrest hbelow (hlayer.child hl)⟩

/-! ### Entries of many merges -/

theorem follow_foldl {K : Bool × Marked → Prop}
    (hK : ∀ base layer, K (mergeEntry base layer) → K base ∨ K layer)
    {trees : List (Members (Bool × Marked))} {merged : Members (Bool × Marked)} {p : ValuePath}
    {entry : Bool × Marked}
    (h : follow (false, .object (trees.foldl mergeMembers merged)) p = some entry)
    (hentry : K entry) :
    (∃ e, follow (false, .object merged) p = some e ∧ K e) ∨
      ∃ tree ∈ trees, ∃ e, follow (false, .object tree) p = some e ∧ K e := by
  induction trees generalizing merged with
  | nil => exact Or.inl ⟨entry, h, hentry⟩
  | cons tree rest ih =>
    rcases ih h with ⟨e, he, hk⟩ | ⟨later, hlater, hfound⟩
    · rw [← mergeEntry_object] at he
      rcases follow_mergeEntry hK he hk with hbase | hlayer
      · exact Or.inl hbase
      · exact Or.inr ⟨tree, List.mem_cons_self, hlayer⟩
    · exact Or.inr ⟨later, List.mem_cons_of_mem _ hlater, hfound⟩

theorem MarkedAt.foldl {trees : List (Members (Bool × Marked))} {merged : Members (Bool × Marked)}
    {p : ValuePath} (h : MarkedAt (false, .object merged) p)
    (hkeys : ∀ step ∈ p, ∃ name, step = .key name)
    (htrees : ∀ tree ∈ trees, ObjectsAbove (false, .object tree) p) :
    MarkedAt (false, .object (trees.foldl mergeMembers merged)) p := by
  induction trees generalizing merged with
  | nil => exact h
  | cons tree rest ih =>
    obtain ⟨hfirst, hrest⟩ := List.forall_mem_cons.1 htrees
    refine ih ?_ hrest
    rw [← mergeEntry_object]
    exact h.mergeEntry_left hkeys hfirst

theorem MarkedAt.foldl_of_mem {trees : List (Members (Bool × Marked))}
    {tree : Members (Bool × Marked)} {p : ValuePath} (h : MarkedAt (false, .object tree) p)
    (htree : tree ∈ trees) (hkeys : ∀ step ∈ p, ∃ name, step = .key name)
    (htrees : ∀ tree ∈ trees, ObjectsAbove (false, .object tree) p)
    (merged : Members (Bool × Marked)) :
    MarkedAt (false, .object (trees.foldl mergeMembers merged)) p := by
  induction trees generalizing merged with
  | nil => simp at htree
  | cons first rest ih =>
    obtain ⟨-, hrest⟩ := List.forall_mem_cons.1 htrees
    rcases List.mem_cons.1 htree with rfl | htree
    · rw [List.foldl_cons]
      refine MarkedAt.foldl ?_ hkeys hrest
      rw [← mergeEntry_object]
      exact h.mergeEntry_right _
    · exact ih htree hrest _

/-! ### The members of an object -/

/-- The members of an object; none of anything else. -/
def members : Marked → Members (Bool × Marked)
  | .object members => members
  | _ => []

@[simp] theorem members_object (inner : Members (Bool × Marked)) :
    (object inner).members = inner := rfl

end Marked

end ConfigTree
