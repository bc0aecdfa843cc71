import ConfigTree.Proofs.Merge
import Mathlib.Data.List.Forall2

/-!
# Scalars in their places

What of a document does not depend on its scalars. `ConfigTree.Document.mapScalars` applies a
function to every scalar of a document but those in the values of members under some given
keys, and `ConfigTree.Marked.mapScalars` does so in a tree. Two documents that become equal when
all these scalars become `null` differ only in them (`ConfigTree.Document.Alike`).

Nothing that merging, forgetting the marks or listing the marks does looks at a scalar: the
first two commute with the function (`ConfigTree.Marked.mapMembers_mergeMembers`,
`ConfigTree.Marked.plainMembers_mapMembers`), and the marks stay where they are
(`ConfigTree.Marked.memberPaths_mapMembers`).
-/

namespace ConfigTree

/-! ### Documents -/

namespace Document

variable {f : Scalar → Scalar} {kept : List String}

mutual

/-- The document with a function applied to its scalars, but not to those in the values of
members under the keys that are kept. -/
def mapScalars (f : Scalar → Scalar) (kept : List String) : Document → Document
  | .scalar s => .scalar (f s)
  | .array items => .array (mapItems f kept items)
  | .object members => .object (mapMembers f kept members)

/-- The items of an array with a function applied to their scalars. -/
def mapItems (f : Scalar → Scalar) (kept : List String) : List Document → List Document
  | [] => []
  | item :: rest => item.mapScalars f kept :: mapItems f kept rest

/-- The members of an object with a function applied to their scalars. -/
def mapMembers (f : Scalar → Scalar) (kept : List String) :
    List (String × Document) → List (String × Document)
  | [] => []
  | (key, value) :: rest =>
    (key, if key ∈ kept then value else value.mapScalars f kept) :: mapMembers f kept rest

end

/-- **Documents that differ only in scalars**, and in none of those in the values of members
under the keys that are kept. -/
def Alike (kept : List String) (d d' : Document) : Prop :=
  d.mapScalars (fun _ => .null) kept = d'.mapScalars (fun _ => .null) kept

instance (kept : List String) (d d' : Document) : Decidable (Alike kept d d') :=
  inferInstanceAs (Decidable (_ = _))

mutual

/-- The function that changes no scalar changes no document. -/
theorem mapScalars_id : ∀ d : Document, d.mapScalars id kept = d
  | .scalar s => by rw [mapScalars, id]
  | .array items => by rw [mapScalars, mapItems_id items]
  | .object members => by rw [mapScalars, mapMembers_id members]

theorem mapItems_id : ∀ items, mapItems id kept items = items
  | [] => by rw [mapItems]
  | item :: rest => by rw [mapItems, mapScalars_id item, mapItems_id rest]

theorem mapMembers_id : ∀ members, mapMembers id kept members = members
  | [] => by rw [mapMembers]
  | (key, value) :: rest => by rw [mapMembers, mapScalars_id value, ite_self, mapMembers_id rest]

end

theorem get?_mapMembers (members : Members Document) (key : String) :
    Members.get? (mapMembers f kept members) key =
      (members.get? key).map fun d => if key ∈ kept then d else d.mapScalars f kept := by
  induction members with
  | nil => rw [mapMembers, Members.get?_nil, Option.map_none]
  | cons member rest ih =>
    obtain ⟨name, value⟩ := member
    rw [mapMembers, Members.get?_cons, Members.get?_cons, ih]
    split
    · rename_i hname
      rw [hname, Option.map_some]
    · rfl

/-- Items that become equal correspond one by one. -/
theorem forall₂_of_mapItems {items items' : List Document}
    (h : mapItems f kept items = mapItems f kept items') :
    List.Forall₂ (fun item item' => item.mapScalars f kept = item'.mapScalars f kept)
      items items' := by
  induction items generalizing items' with
  | nil =>
    rcases items' with _ | ⟨item', rest'⟩ <;> simp only [mapItems, reduceCtorEq] at h
    exact .nil
  | cons item rest ih =>
    rcases items' with _ | ⟨item', rest'⟩ <;> simp only [mapItems, reduceCtorEq] at h
    obtain ⟨hitem, hrest⟩ := List.cons.inj h
    exact .cons hitem (ih hrest)

/-- Members that become equal have the same keys one by one, and so have those of them that are
left when keys are erased. Where the kept keys are erased, their values become equal. -/
theorem forall₂_of_mapMembers {members members' : Members Document} {p : String → Bool}
    (hp : ∀ key ∈ kept, p key = false)
    (h : mapMembers f kept members = mapMembers f kept members') :
    List.Forall₂
      (fun member member' => member.1 = member'.1 ∧
        member.2.mapScalars f kept = member'.2.mapScalars f kept)
      (members.filter (p ·.1)) (members'.filter (p ·.1)) := by
  induction members generalizing members' with
  | nil =>
    rcases members' with _ | ⟨⟨key', value'⟩, rest'⟩ <;> simp only [mapMembers, reduceCtorEq] at h
    exact .nil
  | cons member rest ih =>
    obtain ⟨key, value⟩ := member
    rcases members' with _ | ⟨⟨key', value'⟩, rest'⟩ <;> simp only [mapMembers, reduceCtorEq] at h
    obtain ⟨hmember, hrest⟩ := List.cons.inj h
    obtain ⟨rfl, hvalue⟩ := Prod.mk.inj hmember
    rw [List.filter_cons, List.filter_cons]
    split
    · rename_i hkey
      -- a member that is left has no kept key, so its value was mapped
      have hkept : key ∉ kept := fun hmem => by simp [hp key hmem] at hkey
      rw [if_neg hkept, if_neg hkept] at hvalue
      exact .cons ⟨rfl, hvalue⟩ (ih hrest)
    · exact ih hrest

end Document

/-! ### Trees -/

namespace Marked

variable {f : Scalar → Scalar}

mutual

/-- The tree with a function applied to its scalars. -/
def mapScalars (f : Scalar → Scalar) : Marked → Marked
  | .scalar s => .scalar (f s)
  | .array items => .array (mapItems f items)
  | .object members => .object (mapMembers f members)

/-- The items of an array with a function applied to their scalars. -/
def mapItems (f : Scalar → Scalar) : List Marked → List Marked
  | [] => []
  | item :: rest => item.mapScalars f :: mapItems f rest

/-- The members of an object with a function applied to their scalars. -/
def mapMembers (f : Scalar → Scalar) :
    List (String × Bool × Marked) → List (String × Bool × Marked)
  | [] => []
  | (key, marked, node) :: rest => (key, marked, node.mapScalars f) :: mapMembers f rest

end

theorem mapMembers_eq_map (members : Members (Bool × Marked)) :
    mapMembers f members =
      members.map fun member => (member.1, member.2.1, member.2.2.mapScalars f) := by
  induction members with
  | nil => rw [mapMembers, List.map_nil]
  | cons member rest ih => rw [mapMembers, ih, List.map_cons]

theorem get?_mapMembers (members : Members (Bool × Marked)) (key : String) :
    Members.get? (mapMembers f members) key =
      (members.get? key).map fun entry => (entry.1, entry.2.mapScalars f) := by
  induction members with
  | nil => rw [mapMembers, Members.get?_nil, Option.map_none]
  | cons member rest ih =>
    obtain ⟨name, marked, node⟩ := member
    rw [mapMembers, Members.get?_cons, Members.get?_cons, ih]
    split <;> rfl

theorem has_mapMembers (members : Members (Bool × Marked)) (key : String) :
    Members.has (mapMembers f members) key = members.has key := by
  rw [Members.has, Members.has, get?_mapMembers, Option.isSome_map]

theorem mapMembers_mergeShared {base layer : Members (Bool × Marked)}
    (h : ∀ member ∈ base, ∀ layer, (member.2.2.merge layer).mapScalars f =
      (member.2.2.mapScalars f).merge (layer.mapScalars f)) :
    mapMembers f (mergeShared base layer) =
      mergeShared (mapMembers f base) (mapMembers f layer) := by
  induction base with
  | nil => rw [mergeShared, mapMembers, mergeShared]
  | cons member rest ih =>
    obtain ⟨key, marked, node⟩ := member
    obtain ⟨hfirst, hrest⟩ := List.forall_mem_cons.1 h
    rw [mergeShared]
    rcases hlayer : layer.get? key with _ | ⟨marked', node'⟩
    · simp only [mapMembers, mergeShared, get?_mapMembers, hlayer, Option.map_none, ih hrest]
    · simp only [mapMembers, mergeShared, get?_mapMembers, hlayer, Option.map_some, ih hrest,
        hfirst node']

/-- **Merging looks at no scalar.** -/
theorem mapScalars_merge (base layer : Marked) :
    (base.merge layer).mapScalars f = (base.mapScalars f).merge (layer.mapScalars f) := by
  induction base using Marked.induction generalizing layer with
  | scalar s => rw [scalar_merge, mapScalars, scalar_merge]
  | array items => rw [array_merge, mapScalars, array_merge]
  | object base ih =>
    rcases layer with s | items | layer
    · rw [merge_scalar, mapScalars, merge_scalar]
    · rw [merge_array, mapScalars, merge_array]
    · rw [merge_object, mapScalars, mapScalars, mapScalars, merge, ← mapMembers_mergeShared ih,
        mergeMembers]
      -- which members the overlay adds depends on keys alone
      simp only [has_mapMembers]
      simp only [mapMembers_eq_map, List.map_append, List.filter_map]
      rfl

theorem mapMembers_mergeMembers (base layer : Members (Bool × Marked)) :
    mapMembers f (mergeMembers base layer) =
      mergeMembers (mapMembers f base) (mapMembers f layer) := by
  have h := mapScalars_merge (f := f) (.object base) (.object layer)
  rw [merge_object, mapScalars, mapScalars, mapScalars, merge_object] at h
  exact Marked.object.inj h

mutual

/-- **Forgetting the marks looks at no scalar.** -/
theorem plain_mapScalars : ∀ t : Marked, (t.mapScalars f).plain = t.plain.mapScalars f []
  | .scalar s => by rw [mapScalars, plain, plain, Document.mapScalars]
  | .array items => by rw [mapScalars, plain, plain, Document.mapScalars, plainItems_mapItems items]
  | .object members => by
    rw [mapScalars, plain, plain, Document.mapScalars, plainMembers_mapMembers members]

theorem plainItems_mapItems :
    ∀ items, plainItems (mapItems f items) = Document.mapItems f [] (plainItems items)
  | [] => by rw [mapItems, plainItems, Document.mapItems]
  | item :: rest => by
    rw [mapItems, plainItems, plainItems, Document.mapItems, plain_mapScalars item,
      plainItems_mapItems rest]

theorem plainMembers_mapMembers :
    ∀ members, plainMembers (mapMembers f members) = Document.mapMembers f [] (plainMembers members)
  | [] => by rw [mapMembers, plainMembers, Document.mapMembers]
  | (key, marked, node) :: rest => by
    rw [mapMembers, plainMembers, plainMembers, Document.mapMembers, plain_mapScalars node,
      plainMembers_mapMembers rest, if_neg List.not_mem_nil]

end

mutual

/-- **The marks are at the same places**, whatever the scalars are. -/
theorem publicPaths_mapScalars : ∀ t : Marked, (t.mapScalars f).publicPaths = t.publicPaths
  | .scalar s => by rw [mapScalars, publicPaths, publicPaths]
  | .array items => by rw [mapScalars, publicPaths, publicPaths, itemPaths_mapItems 0 items]
  | .object members => by
    rw [mapScalars, publicPaths, publicPaths, memberPaths_mapMembers members]

theorem itemPaths_mapItems : ∀ i items, itemPaths i (mapItems f items) = itemPaths i items
  | i, [] => by rw [mapItems]
  | i, item :: rest => by
    rw [mapItems, itemPaths, itemPaths, publicPaths_mapScalars item,
      itemPaths_mapItems (i + 1) rest]

theorem memberPaths_mapMembers : ∀ members, memberPaths (mapMembers f members) = memberPaths members
  | [] => by rw [mapMembers]
  | (key, marked, node) :: rest => by
    rw [mapMembers, memberPaths, memberPaths, publicPaths_mapScalars node,
      memberPaths_mapMembers rest]

end

end Marked

end ConfigTree
