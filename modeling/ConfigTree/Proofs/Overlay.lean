import ConfigTree.Proofs.Merge
import Mathlib.Logic.Equiv.Basic

/-!
# Putting one document over another

A document is put over another by way of trees in which nothing is marked: both are turned into
trees, the trees are merged, and the marks are forgotten. Nothing of that shows. Turning a document
into a tree loses nothing and marks nothing, and the whole is the recursion on documents
(`ConfigTree.Document.overlay_is_merge`): of two objects, the members of the first one stay in their
places, each with the value of the second one put over its own, and the other members of the second
one follow in their order; anything else is replaced.

The recursion also has a reading in place, as a loop over the members of the second object: each of
them is put over the member with its key, or appended (`ConfigTree.Document.mergeMember`). And no
key has a meaning of its own in it: keys can be renamed before or after
(`ConfigTree.Document.merge_renameKeys`).
-/

namespace ConfigTree

namespace Document

variable {base layer rest members : Members Document} {key : String} {value : Document}

/-! ### Member by member -/

theorem mergeShared_eq_map (base layer : Members Document) :
    mergeShared base layer =
      base.map fun member => (member.1, (layer.get? member.1).elim member.2 member.2.merge) := by
  induction base with
  | nil => rw [mergeShared, List.map_nil]
  | cons member rest ih =>
    obtain ⟨key, value⟩ := member
    rw [mergeShared, ih, List.map_cons]
    cases layer.get? key <;> rfl

/-- **Two objects** are merged member by member. -/
theorem merge_object (base layer : Members Document) :
    (object base).merge (object layer) =
      object (base.map (fun member =>
          (member.1, (layer.get? member.1).elim member.2 member.2.merge)) ++
        layer.filter fun member => !base.has member.1) := by
  rw [merge, mergeShared_eq_map]

/-- **One member put over an object**: over the member with its key, or after all the others. -/
def mergeMember (members : Members Document) (member : String × Document) : Members Document :=
  members.put member.1 ((members.get? member.1).elim member.2 (·.merge member.2))

/-- Members are left alone by one under another key. -/
theorem map_elim_of_not_mem (h : key ∉ members.keys) :
    members.map (fun member =>
      (member.1, (Members.get? [(key, value)] member.1).elim member.2 member.2.merge)) =
      members := by
  refine (List.map_congr_left fun member hmember => ?_).trans (List.map_id members)
  have hne : key ≠ member.1 := fun heq => h (heq ▸ List.mem_map_of_mem hmember)
  rw [Members.get?_cons, if_neg hne]
  rfl

theorem map_elim_eq_put (hdistinct : members.Distinct) (h : key ∈ members.keys) :
    members.map (fun member =>
      (member.1, (Members.get? [(key, value)] member.1).elim member.2 member.2.merge)) =
      mergeMember members (key, value) := by
  induction members with
  | nil => simp [Members.keys] at h
  | cons member rest ih =>
    obtain ⟨name, there⟩ := member
    obtain ⟨hname, hrest⟩ := List.nodup_cons.1 hdistinct
    rw [List.map_cons, mergeMember, Members.put, Members.get?_cons, Members.get?_cons]
    by_cases heq : name = key
    · subst heq
      rw [if_pos rfl, if_pos rfl, if_pos rfl, map_elim_of_not_mem hname]
      rfl
    · rw [if_neg heq, if_neg heq, if_neg (Ne.symm heq), ih hrest]
      · rfl
      · exact (List.mem_cons.1 h).resolve_left (Ne.symm heq)

/-- An object with one member put over another object. -/
theorem merge_object_single (hdistinct : members.Distinct) (key : String) (value : Document) :
    (object members).merge (object [(key, value)]) =
      object (mergeMember members (key, value)) := by
  rw [merge_object]
  by_cases hkey : key ∈ members.keys
  · rw [map_elim_eq_put hdistinct hkey,
      List.filter_cons_of_neg (by simpa [← Members.has_iff] using hkey), List.filter_nil,
      List.append_nil]
  · rw [map_elim_of_not_mem hkey, List.filter_cons_of_pos (by simpa [← Members.has_iff] using hkey),
      List.filter_nil, mergeMember, Members.get?_eq_none_iff.2 hkey]
    exact congrArg object (Members.put_eq_append hkey value).symm

/-- An object is put over another one as its first member is, and then the others. -/
theorem merge_object_cons (hkey : key ∉ rest.keys) :
    (object base).merge (object ((key, value) :: rest)) =
      ((object base).merge (object [(key, value)])).merge (object rest) := by
  have htrees : Marked.mergeMembers
      (Marked.mergeMembers (Marked.ofMembers base) (Marked.ofMembers [(key, value)]))
        (Marked.ofMembers rest) =
      Marked.mergeMembers (Marked.ofMembers base) (Marked.ofMembers ((key, value) :: rest)) := by
    rw [Marked.mergeMembers_append]
    · simp only [Marked.ofMembers, List.cons_append, List.nil_append]
    · simp only [Marked.ofMembers]
      rintro _ (_ | ⟨_, ⟨⟩⟩)
      rwa [← Marked.keys_plainMembers, Marked.plainMembers_ofMembers]
  have hplain := congrArg (fun members => (Marked.object members).plain) htrees
  simp only [← Marked.merge_object, Marked.plain_merge, Marked.plain_object,
    Marked.plainMembers_ofMembers] at hplain
  exact hplain.symm

/-- **Merging in place**: the members of the overlay are put over the object one after the other. -/
theorem merge_object_eq_foldl (hbase : base.Distinct) (hlayer : layer.Distinct) :
    (object base).merge (object layer) = object (layer.foldl mergeMember base) := by
  induction layer generalizing base with
  | nil => simp [merge_object]
  | cons member rest ih =>
    obtain ⟨key, value⟩ := member
    obtain ⟨hkey, hrest⟩ := List.nodup_cons.1 hlayer
    rw [merge_object_cons hkey, merge_object_single hbase, List.foldl_cons]
    exact ih (hbase.put key _) hrest

/-! ### Keys without a meaning -/

mutual

/-- The document with every key renamed. -/
def renameKeys (f : String → String) : Document → Document
  | .scalar s => .scalar s
  | .array items => .array (renameItems f items)
  | .object members => .object (renameMembers f members)

/-- The items of an array with every key renamed. -/
def renameItems (f : String → String) : List Document → List Document
  | [] => []
  | item :: rest => item.renameKeys f :: renameItems f rest

/-- The members of an object with every key renamed. -/
def renameMembers (f : String → String) : List (String × Document) → List (String × Document)
  | [] => []
  | (key, value) :: rest => (f key, value.renameKeys f) :: renameMembers f rest

end

variable {f : String → String}

theorem renameMembers_eq_map (members : Members Document) :
    renameMembers f members = members.map fun member => (f member.1, member.2.renameKeys f) := by
  induction members with
  | nil => rw [renameMembers, List.map_nil]
  | cons member rest ih => rw [renameMembers, ih, List.map_cons]

theorem get?_renameMembers (hf : Function.Injective f) (members : Members Document)
    (key : String) :
    Members.get? (renameMembers f members) (f key) = (members.get? key).map (renameKeys f) := by
  induction members with
  | nil => rw [renameMembers, Members.get?_nil, Members.get?_nil, Option.map_none]
  | cons member rest ih =>
    obtain ⟨name, value⟩ := member
    rw [renameMembers, Members.get?_cons, Members.get?_cons, ih]
    by_cases h : name = key
    · rw [if_pos h, if_pos (congrArg f h), Option.map_some]
    · rw [if_neg h, if_neg fun heq => h (hf heq)]

theorem has_renameMembers (hf : Function.Injective f) (members : Members Document)
    (key : String) : Members.has (renameMembers f members) (f key) = members.has key := by
  rw [Members.has, Members.has, get?_renameMembers hf, Option.isSome_map]

/-- **Merging treats all keys alike**: they can be renamed before or after. -/
theorem merge_renameKeys (hf : Function.Injective f) (base layer : Document) :
    (base.renameKeys f).merge (layer.renameKeys f) = (base.merge layer).renameKeys f := by
  induction base using Document.induction generalizing layer with
  | scalar s =>
    rw [renameKeys, merge_of_not_object (by simp), merge_of_not_object (by simp)]
  | array items =>
    rw [renameKeys, merge_of_not_object (by simp), merge_of_not_object (by simp)]
  | object base ih =>
    rcases layer with s | items | layer
    · rw [merge_of_not_object (by simp [renameKeys]), merge_of_not_object (by simp)]
    · rw [merge_of_not_object (by simp [renameKeys]), merge_of_not_object (by simp)]
    · simp only [renameKeys, merge_object, renameMembers_eq_map, List.map_append, List.map_map,
        List.filter_map]
      simp only [← renameMembers_eq_map]
      congr 2
      · refine List.map_congr_left fun member hmember => ?_
        simp only [Function.comp_apply, get?_renameMembers hf]
        cases Members.get? layer member.1 with
        | none => rfl
        | some value => exact congrArg (Prod.mk _) (ih member hmember value)
      · congr 1
        simp only [Function.comp_def, has_renameMembers hf]

/-! ### The recursion -/

/-- **Putting one document over another is the recursion on documents.** Of two objects, the members
of the first stay in their order, each with the value that the second one has under its key put over
its own, and the members that only the second one has follow in their order; in place, the members
of the second one are put over the first one by one. Everywhere else the second document replaces
the first. A document that is turned into a tree and back is the same, with no public path. And all
keys are ordinary ones: if they are renamed, the result is renamed. -/
theorem overlay_is_merge :
    (∀ base layer : Document, base.overlay layer = base.merge layer) ∧
    (∀ base layer : Members Document, (object base).merge (object layer) =
      object (base.map (fun member =>
          (member.1, (layer.get? member.1).elim member.2 member.2.merge)) ++
        layer.filter fun member => !base.has member.1)) ∧
    (∀ base layer : Members Document, base.Distinct → layer.Distinct →
      (object base).merge (object layer) = object (layer.foldl mergeMember base)) ∧
    (∀ base layer : Document, (∀ b o, base = object b → layer ≠ object o) →
      base.merge layer = layer) ∧
    (∀ d : Document, (Marked.ofDocument d).plain = d ∧ (Marked.ofDocument d).publicPaths = []) ∧
    ∀ f : String → String, Function.Injective f → ∀ base layer : Document,
      (base.renameKeys f).overlay (layer.renameKeys f) = (base.overlay layer).renameKeys f := by
  refine ⟨overlay_eq_merge, merge_object, fun _ _ => merge_object_eq_foldl,
    fun _ _ => merge_of_not_object, fun d => ⟨Marked.plain_ofDocument d,
      Marked.publicPaths_ofDocument d⟩, fun f hf base layer => ?_⟩
  rw [overlay_eq_merge, overlay_eq_merge, merge_renameKeys hf]

/-- Keys of directives and keys with a mark are merged as all others are, and a `null` replaces
what it is put over. -/
theorem overlay_of_directive_keys :
    ∃ base layer : Members Document, base.Distinct ∧ layer.Distinct ∧
      (object base).overlay (object layer) = object (layer.foldl mergeMember base) ∧
      (object base).overlay (object layer) = object [("#public", object [("a", null),
        ("b", array [])]), ("k", null), ("#include", null), ("k#public", null)] := by
  let base : Members Document := [("#public", object [("a", null)]), ("k", object [])]
  let layer : Members Document :=
    [("#include", null), ("k", null), ("k#public", null), ("#public", object [("b", array [])])]
  have hbase : base.Distinct := by simp [base, Members.Distinct, Members.keys]
  have hlayer : layer.Distinct := by simp [layer, Members.Distinct, Members.keys]
  obtain ⟨hmerge, -, hinPlace, -⟩ := overlay_is_merge
  refine ⟨base, layer, hbase, hlayer, ?_, by decide⟩
  rw [hmerge, hinPlace base layer hbase hlayer]

end Document

end ConfigTree
