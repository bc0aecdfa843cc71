import ConfigTree.Proofs.Grammar
import ConfigTree.Proofs.PublicSubset

/-!
# Members in another order

Two lists of members are **permuted** (`ConfigTree.Members.Permutes`) when they have the same keys
in any order, with related values. Where keys are distinct, that is what lookups say
(`ConfigTree.Members.permutes_iff_get?`). A document is **reordered** when the members of its
objects are permuted at any depth (`ConfigTree.Document.Reordered`), while the items of its arrays
stay in their order.

Trees are reordered in the same way, with the marks of their members kept
(`ConfigTree.Marked.Reordered`). What is done with trees keeps them so: merging, which works lookup
by lookup (`ConfigTree.Marked.Reordered.merge`), forgetting the marks
(`ConfigTree.Marked.Reordered.plain`) and listing them, up to the order of the list
(`ConfigTree.Marked.Reordered.perm_publicPaths`). So does copying the public parts into a subset,
path after path: mirrors of reordered documents are reordered, whatever the order in which the paths
were inserted, if the paths cover the same places (`ConfigTree.Document.SameCover`,
`ConfigTree.Document.Mirrors.reordered`).
-/

namespace ConfigTree

/-- Lists are related when they are at each index. -/
theorem forall₂_iff_getElem? {α β : Type} {R : α → β → Prop} {xs : List α} {ys : List β} :
    List.Forall₂ R xs ys ↔ ∀ i : Nat, Option.Rel R xs[i]? ys[i]? := by
  constructor
  · intro h
    induction h with
    | nil => exact fun i => .none
    | cons hxy _ ih =>
      rintro (_ | i)
      · exact .some hxy
      · exact ih i
  · intro h
    induction xs generalizing ys with
    | nil =>
      rcases ys with _ | ⟨y, ys⟩
      · exact .nil
      · nomatch h 0
    | cons x xs ih =>
      rcases ys with _ | ⟨y, ys⟩
      · nomatch h 0
      · obtain hxy : Option.Rel R (some x) (some y) := h 0
        cases hxy with
        | some hxy => exact .cons hxy (ih fun i => h (i + 1))

namespace Members

/-- Members with the same key and related values. -/
inductive SameKey {α β : Type} (R : α → β → Prop) : String × α → String × β → Prop
  | intro {key : String} {a : α} {b : β} : R a b → SameKey R (key, a) (key, b)

/-- **Permuted members**: the same keys in any order, with related values. -/
def Permutes {α β : Type} (R : α → β → Prop) (members : Members α) (members' : Members β) : Prop :=
  ∃ middle : Members β, List.Forall₂ (SameKey R) members middle ∧ middle.Perm members'

variable {α β γ δ : Type} {R S : α → β → Prop} {members : Members α} {members' middle : Members β}
  {key : String}

theorem SameKey.key_eq {member : String × α} {member' : String × β} (h : SameKey R member member') :
    member.1 = member'.1 := by
  cases h
  rfl

theorem SameKey.value {member : String × α} {member' : String × β} (h : SameKey R member member') :
    R member.2 member'.2 := by
  cases h
  assumption

theorem keys_eq_of_forall₂ (h : List.Forall₂ (SameKey R) members middle) :
    members.keys = middle.keys := by
  induction h with
  | nil => rfl
  | cons hmember _ ih => exact congrArg₂ List.cons hmember.key_eq ih

theorem get?_of_forall₂ (h : List.Forall₂ (SameKey R) members middle) (key : String) :
    Option.Rel R (members.get? key) (middle.get? key) := by
  induction h with
  | nil => exact .none
  | @cons member _ _ _ hmember _ ih =>
    obtain ⟨hvalue⟩ := hmember
    rw [get?_cons, get?_cons]
    split
    · exact .some hvalue
    · exact ih

theorem distinct_of_forall₂ (h : List.Forall₂ (SameKey R) members middle)
    (hdistinct : members.Distinct) : middle.Distinct := by
  rwa [Distinct, ← keys_eq_of_forall₂ h]

/-- Where keys are distinct, the order of members does not matter to a lookup. -/
theorem get?_of_perm (hdistinct : middle.Distinct) (h : middle.Perm members') (key : String) :
    middle.get? key = members'.get? key := by
  rcases hget : members'.get? key with _ | b
  · rw [get?_eq_none_iff] at hget ⊢
    exact fun hkey => hget ((h.map Prod.fst).mem_iff.1 hkey)
  · exact get?_of_mem hdistinct (h.mem_iff.2 (mem_of_get? hget))

theorem Permutes.keys_perm (h : Permutes R members members') :
    members.keys.Perm members'.keys := by
  obtain ⟨middle, hmiddle, hperm⟩ := h
  rw [keys_eq_of_forall₂ hmiddle]
  exact hperm.map Prod.fst

theorem Permutes.distinct (h : Permutes R members members') (hdistinct : members.Distinct) :
    members'.Distinct := h.keys_perm.nodup_iff.1 hdistinct

/-- Lookups in permuted members find related values. -/
theorem Permutes.get? (h : Permutes R members members') (hdistinct : members.Distinct)
    (key : String) : Option.Rel R (members.get? key) (members'.get? key) := by
  obtain ⟨middle, hmiddle, hperm⟩ := h
  rw [← get?_of_perm (distinct_of_forall₂ hmiddle hdistinct) hperm]
  exact get?_of_forall₂ hmiddle key

/-- **Members are permuted when lookups agree**, if keys are distinct. -/
theorem permutes_iff_get? (hdistinct : members.Distinct) (hdistinct' : members'.Distinct) :
    Permutes R members members' ↔ ∀ key, Option.Rel R (members.get? key) (members'.get? key) := by
  refine ⟨fun h => h.get? hdistinct, fun h => ?_⟩
  -- each member is related to one that is found under its key
  obtain ⟨middle, hmiddle⟩ : ∃ middle,
      List.Forall₂ (fun member member' => SameKey R member member' ∧ member' ∈ members')
        members middle := by
    refine exists_forall₂_iff.2 fun ⟨key, a⟩ hmember => ?_
    have hrel := h key
    rw [get?_of_mem hdistinct hmember] at hrel
    generalize hget : members'.get? key = found at hrel
    cases hrel with
    | @some _ b hab => exact ⟨(key, b), ⟨hab⟩, mem_of_get? hget⟩
  have hsame : List.Forall₂ (SameKey R) members middle := hmiddle.imp fun _ _ => And.left
  have hkeys : members'.keys ⊆ members.keys := fun key hkey => by
    have hrel := h key
    by_contra hnone
    rw [get?_eq_none_iff.2 hnone] at hrel
    generalize hget : members'.get? key = found at hrel
    cases hrel
    exact get?_eq_none_iff.1 hget hkey
  -- no key is found twice, and there are no more keys than members
  have hsub : List.Subperm middle members' :=
    List.subperm_of_subset (.of_map _ (distinct_of_forall₂ hsame hdistinct))
      fun member hmember => by
        obtain ⟨_, -, -, hmem⟩ := exists_left_of_forall₂ hmiddle hmember
        exact hmem
  refine ⟨middle, hsame, hsub.perm_of_length_le ?_⟩
  have hlength := (List.subperm_of_subset hdistinct' hkeys).length_le
  rwa [keys, keys, List.length_map, List.length_map, hsame.length_eq] at hlength

theorem Permutes.imp (h : Permutes R members members')
    (himp : ∀ member ∈ members, ∀ b, R member.2 b → S member.2 b) :
    Permutes S members members' := by
  obtain ⟨middle, hmiddle, hperm⟩ := h
  refine ⟨middle, ?_, hperm⟩
  clear hperm
  induction hmiddle with
  | nil => exact .nil
  | cons hmember _ ih =>
    obtain ⟨hfirst, hrest⟩ := List.forall_mem_cons.1 himp
    obtain ⟨hvalue⟩ := hmember
    exact .cons ⟨hfirst _ hvalue⟩ (ih hrest)

/-- What holds of every value that is related to a member holds of all permuted members. -/
theorem Permutes.forall_right {P : β → Prop} (h : Permutes R members members')
    (hmembers : ∀ member ∈ members, ∀ b, R member.2 b → P b) :
    ∀ member' ∈ members', P member'.2 := by
  obtain ⟨middle, hmiddle, hperm⟩ := h
  intro member' hmember'
  obtain ⟨member, hmember, hsame⟩ := exists_left_of_forall₂ hmiddle (hperm.mem_iff.2 hmember')
  exact hmembers member hmember _ hsame.value

theorem permutes_refl {R : α → α → Prop} (h : ∀ member ∈ members, R member.2 member.2) :
    Permutes R members members :=
  ⟨members, List.forall₂_same.2 fun member hmember => ⟨h member hmember⟩, .refl _⟩

theorem Permutes.symm (h : Permutes R members members') : Permutes (flip R) members' members := by
  obtain ⟨middle, hmiddle, hperm⟩ := h
  obtain ⟨other, hother, hperm'⟩ :=
    List.perm_comp_forall₂ hperm.symm (hmiddle.flip.imp fun _ _ ⟨hvalue⟩ =>
      (⟨hvalue⟩ : SameKey (flip R) _ _))
  exact ⟨other, hother, hperm'⟩

theorem forall₂_trans {S : β → γ → Prop} {T : α → γ → Prop} {others : Members γ}
    (h : List.Forall₂ (SameKey R) members middle) (h' : List.Forall₂ (SameKey S) middle others)
    (htrans : ∀ member ∈ members, ∀ b c, R member.2 b → S b c → T member.2 c) :
    List.Forall₂ (SameKey T) members others := by
  induction h generalizing others with
  | nil =>
    cases h'
    exact .nil
  | cons hmember _ ih =>
    obtain ⟨hfirst, hrest⟩ := List.forall_mem_cons.1 htrans
    cases h' with
    | cons hother hothers =>
      obtain ⟨hvalue⟩ := hmember
      obtain ⟨hvalue'⟩ := hother
      exact .cons ⟨hfirst _ _ hvalue hvalue'⟩ (ih hothers hrest)

theorem Permutes.trans {S : β → γ → Prop} {T : α → γ → Prop} {others : Members γ}
    (h : Permutes R members members') (h' : Permutes S members' others)
    (htrans : ∀ member ∈ members, ∀ b c, R member.2 b → S b c → T member.2 c) :
    Permutes T members others := by
  obtain ⟨first, hfirst, hperm⟩ := h
  obtain ⟨second, hsecond, hperm'⟩ := h'
  obtain ⟨last, hlast, hperm''⟩ := List.perm_comp_forall₂ hperm hsecond
  exact ⟨last, forall₂_trans hfirst hlast htrans, hperm''.trans hperm'⟩

theorem Permutes.map {T : γ → δ → Prop} (f : α → γ) (g : β → δ)
    (h : Permutes (fun a b => T (f a) (g b)) members members') :
    Permutes T (members.map fun member => (member.1, f member.2))
      (members'.map fun member => (member.1, g member.2)) := by
  obtain ⟨middle, hmiddle, hperm⟩ := h
  refine ⟨_, ?_, hperm.map _⟩
  rw [List.forall₂_map_left_iff, List.forall₂_map_right_iff]
  exact hmiddle.imp fun _ _ ⟨hvalue⟩ => ⟨hvalue⟩

theorem forall₂_erase (h : List.Forall₂ (SameKey R) members middle) (key : String) :
    List.Forall₂ (SameKey R) (members.erase key) (middle.erase key) := by
  induction h with
  | nil => exact .nil
  | cons hmember _ ih =>
    obtain ⟨hvalue⟩ := hmember
    rw [erase, erase, List.filter_cons, List.filter_cons]
    split
    · exact .cons ⟨hvalue⟩ ih
    · exact ih

theorem Permutes.erase (h : Permutes R members members') (key : String) :
    Permutes R (members.erase key) (members'.erase key) := by
  obtain ⟨middle, hmiddle, hperm⟩ := h
  exact ⟨_, forall₂_erase hmiddle key, hperm.filter _⟩

section Entries

variable {E : String × α → String × γ → Prop} {E' : String × β → String × δ → Prop}
  {T : γ → δ → Prop} {entries : Members γ}

theorem exists_entries_of_forall₂ (h : List.Forall₂ (SameKey R) members middle)
    (hentries : List.Forall₂ E members entries)
    (hstep : ∀ member ∈ members, ∀ member' entry, SameKey R member member' → E member entry →
      ∃ entry', E' member' entry' ∧ SameKey T entry entry') :
    ∃ entries', List.Forall₂ E' middle entries' ∧ List.Forall₂ (SameKey T) entries entries' := by
  induction h generalizing entries with
  | nil =>
    cases hentries
    exact ⟨[], .nil, .nil⟩
  | cons hmember _ ih =>
    obtain ⟨hfirst, hrest⟩ := List.forall_mem_cons.1 hstep
    cases hentries with
    | cons hentry hentries =>
      obtain ⟨entry', hentry', hsame⟩ := hfirst _ _ hmember hentry
      obtain ⟨entries', hentries', hothers⟩ := ih hentries hrest
      exact ⟨entry' :: entries', .cons hentry' hentries', .cons hsame hothers⟩

/-- **What comes of permuted members is permuted**, when each of them comes to something related,
under a name that depends only on its key. -/
theorem Permutes.exists_entries (h : Permutes R members members')
    (hentries : List.Forall₂ E members entries)
    (hstep : ∀ member ∈ members, ∀ member' entry, SameKey R member member' → E member entry →
      ∃ entry', E' member' entry' ∧ SameKey T entry entry') :
    ∃ entries', List.Forall₂ E' members' entries' ∧ Permutes T entries entries' := by
  obtain ⟨middle, hmiddle, hperm⟩ := h
  obtain ⟨between, hbetween, hsame⟩ := exists_entries_of_forall₂ hmiddle hentries hstep
  obtain ⟨entries', hentries', hperm'⟩ := List.perm_comp_forall₂ hperm.symm hbetween
  exact ⟨entries', hentries', between, hsame, hperm'.symm⟩

end Entries

end Members

namespace Document

/-- **Reordered documents**: equal up to the order of the members of objects, at any depth. -/
inductive Reordered : Document → Document → Prop
  | scalar (s : Scalar) : Reordered (.scalar s) (.scalar s)
  | array {items items' : List Document} : List.Forall₂ Reordered items items' →
      Reordered (.array items) (.array items')
  | object {members middle members' : Members Document} :
      List.Forall₂ (Members.SameKey Reordered) members middle → middle.Perm members' →
      Reordered (.object members) (.object members')

variable {d d' : Document} {items : List Document} {members members' : Members Document}

/-- An object is reordered when its members are permuted. -/
theorem reordered_object_iff :
    Reordered (.object members) (.object members') ↔
      Members.Permutes Reordered members members' := by
  constructor
  · rintro (_ | _ | ⟨hmiddle, hperm⟩)
    exact ⟨_, hmiddle, hperm⟩
  · rintro ⟨middle, hmiddle, hperm⟩
    exact .object hmiddle hperm

theorem Reordered.exists_array (h : Reordered (.array items) d) :
    ∃ items', d = .array items' ∧ List.Forall₂ Reordered items items' := by
  cases h with
  | array hitems => exact ⟨_, rfl, hitems⟩

theorem Reordered.exists_object (h : Reordered (.object members) d) :
    ∃ members', d = .object members' ∧ Members.Permutes Reordered members members' := by
  cases h with
  | object hmiddle hperm => exact ⟨_, rfl, _, hmiddle, hperm⟩

theorem Reordered.refl (d : Document) : Reordered d d := by
  induction d using Document.induction with
  | scalar s => exact .scalar s
  | array items ih => exact .array (List.forall₂_same.2 ih)
  | object members ih => exact reordered_object_iff.2 (Members.permutes_refl ih)

theorem Reordered.symm (h : Reordered d d') : Reordered d' d := by
  induction d using Document.induction generalizing d' with
  | scalar s =>
    cases h
    exact .scalar s
  | array items ih =>
    obtain ⟨items', rfl, hitems⟩ := h.exists_array
    refine .array ?_
    rw [List.forall₂_iff_get] at hitems ⊢
    exact ⟨hitems.1.symm, fun i hi' hi => ih _ (List.get_mem _ _) (hitems.2 i hi hi')⟩
  | object members ih =>
    obtain ⟨members', rfl, hmembers⟩ := h.exists_object
    exact reordered_object_iff.2 (hmembers.imp fun member hmember _ => ih member hmember).symm

end Document

/-! ### Trees -/

namespace Marked

/-- Entries with the same mark and related trees. -/
inductive SameMark (R : Marked → Marked → Prop) : Bool × Marked → Bool × Marked → Prop
  | intro {mark : Bool} {node node' : Marked} : R node node' → SameMark R (mark, node) (mark, node')

/-- **Reordered trees**: equal up to the order of the members of objects, at any depth. -/
inductive Reordered : Marked → Marked → Prop
  | scalar (s : Scalar) : Reordered (.scalar s) (.scalar s)
  | array {items items' : List Marked} : List.Forall₂ Reordered items items' →
      Reordered (.array items) (.array items')
  | object {members middle members' : Members (Bool × Marked)} :
      List.Forall₂ (Members.SameKey (SameMark Reordered)) members middle → middle.Perm members' →
      Reordered (.object members) (.object members')

variable {t t' : Marked} {items : List Marked} {members members' : Members (Bool × Marked)}

theorem SameMark.node {R : Marked → Marked → Prop} {entry entry' : Bool × Marked}
    (h : SameMark R entry entry') : R entry.2 entry'.2 := by
  cases h
  assumption

theorem sameMark_iff {R : Marked → Marked → Prop} {entry entry' : Bool × Marked} :
    SameMark R entry entry' ↔ entry.1 = entry'.1 ∧ R entry.2 entry'.2 := by
  constructor
  · rintro ⟨hnode⟩
    exact ⟨rfl, hnode⟩
  · obtain ⟨mark, node⟩ := entry
    obtain ⟨mark', node'⟩ := entry'
    rintro ⟨rfl, hnode⟩
    exact ⟨hnode⟩

/-- An object is reordered when its members are permuted. -/
theorem reordered_object_iff :
    Reordered (.object members) (.object members') ↔
      Members.Permutes (SameMark Reordered) members members' := by
  constructor
  · rintro (_ | _ | ⟨hmiddle, hperm⟩)
    exact ⟨_, hmiddle, hperm⟩
  · rintro ⟨middle, hmiddle, hperm⟩
    exact .object hmiddle hperm

theorem Reordered.exists_array (h : Reordered (.array items) t) :
    ∃ items', t = .array items' ∧ List.Forall₂ Reordered items items' := by
  cases h with
  | array hitems => exact ⟨_, rfl, hitems⟩

theorem Reordered.exists_object (h : Reordered (.object members) t) :
    ∃ members', t = .object members' ∧
      Members.Permutes (SameMark Reordered) members members' := by
  cases h with
  | object hmiddle hperm => exact ⟨_, rfl, _, hmiddle, hperm⟩

theorem Reordered.refl (t : Marked) : Reordered t t := by
  induction t using Marked.induction with
  | scalar s => exact .scalar s
  | array items ih => exact .array (List.forall₂_same.2 ih)
  | object members ih =>
    exact reordered_object_iff.2 (Members.permutes_refl fun member hmember =>
      ⟨ih member hmember⟩)

theorem Reordered.trans {t'' : Marked} (h : Reordered t t') (h' : Reordered t' t'') :
    Reordered t t'' := by
  induction t using Marked.induction generalizing t' t'' with
  | scalar s =>
    cases h
    exact h'
  | array items ih =>
    obtain ⟨items', rfl, hitems⟩ := h.exists_array
    obtain ⟨items'', rfl, hitems'⟩ := h'.exists_array
    refine .array ?_
    rw [List.forall₂_iff_get] at hitems hitems' ⊢
    exact ⟨hitems.1.trans hitems'.1, fun i hi hi'' => ih _ (List.get_mem _ _)
      (hitems.2 i hi (hitems.1 ▸ hi)) (hitems'.2 i _ hi'')⟩
  | object members ih =>
    obtain ⟨members', rfl, hmembers⟩ := h.exists_object
    obtain ⟨members'', rfl, hmembers'⟩ := h'.exists_object
    refine reordered_object_iff.2 (hmembers.trans hmembers' fun member hmember _ _ hsame hsame' => ?_)
    obtain ⟨hmark, hnode⟩ := sameMark_iff.1 hsame
    obtain ⟨hmark', hnode'⟩ := sameMark_iff.1 hsame'
    exact sameMark_iff.2 ⟨hmark.trans hmark', ih member hmember hnode hnode'⟩

/-- Of two reordered trees both repeat no key, or none does. -/
theorem Reordered.distinct (h : Reordered t t') (hdistinct : t.Distinct) : t'.Distinct := by
  induction t using Marked.induction generalizing t' with
  | scalar s =>
    cases h
    exact hdistinct
  | array items ih =>
    obtain ⟨items', rfl, hitems⟩ := h.exists_array
    rw [Distinct, distinctItems_iff] at hdistinct ⊢
    intro item' hitem'
    obtain ⟨item, hitem, hsame⟩ := exists_left_of_forall₂ hitems hitem'
    exact ih item hitem hsame (hdistinct item hitem)
  | object members ih =>
    obtain ⟨members', rfl, hmembers⟩ := h.exists_object
    rw [Distinct, distinctMembers_iff] at hdistinct ⊢
    exact ⟨hmembers.distinct hdistinct.1, hmembers.forall_right fun member hmember _ hsame =>
      ih member hmember hsame.node (hdistinct.2 member hmember)⟩

/-- **Forgetting the marks** keeps trees reordered. -/
theorem Reordered.plain (h : Reordered t t') : Document.Reordered t.plain t'.plain := by
  induction t using Marked.induction generalizing t' with
  | scalar s =>
    cases h
    exact .refl _
  | array items ih =>
    obtain ⟨items', rfl, hitems⟩ := h.exists_array
    rw [Marked.plain, Marked.plain, plainItems_eq_map, plainItems_eq_map]
    refine .array (List.forall₂_map_left_iff.2 (List.forall₂_map_right_iff.2 ?_))
    rw [List.forall₂_iff_get] at hitems ⊢
    exact ⟨hitems.1, fun i hi hi' => ih _ (List.get_mem _ _) (hitems.2 i hi hi')⟩
  | object members ih =>
    obtain ⟨members', rfl, hmembers⟩ := h.exists_object
    rw [plain_object, plain_object, plainMembers_eq_map, plainMembers_eq_map]
    refine Document.reordered_object_iff.2 (Members.Permutes.map
      (fun entry : Bool × Marked => entry.2.plain) (fun entry : Bool × Marked => entry.2.plain) ?_)
    exact hmembers.imp fun member hmember _ hsame => ih member hmember hsame.node

/-! ### The places of marks -/

theorem perm_itemPaths {items items' : List Marked} (i : Nat)
    (h : List.Forall₂ (fun item item' => item.publicPaths.Perm item'.publicPaths) items items') :
    (itemPaths i items).Perm (itemPaths i items') := by
  induction h generalizing i with
  | nil => exact .refl _
  | cons hitem _ ih =>
    rw [itemPaths, itemPaths]
    exact (hitem.map _).append (ih (i + 1))

theorem memberPaths_eq_flatMap (members : Members (Bool × Marked)) :
    memberPaths members =
      members.flatMap fun member => (entryPaths member.2).map (.key member.1 :: ·) := by
  induction members with
  | nil => rw [memberPaths, List.flatMap_nil]
  | cons member rest ih => rw [memberPaths_cons, ih, List.flatMap_cons]

theorem perm_memberPaths
    (h : Members.Permutes (fun entry entry' => (entryPaths entry).Perm (entryPaths entry'))
      members members') :
    (memberPaths members).Perm (memberPaths members') := by
  obtain ⟨middle, hmiddle, hperm⟩ := h
  refine List.Perm.trans ?_ (?_ : (memberPaths middle).Perm _)
  · clear hperm
    induction hmiddle with
    | nil => exact .refl _
    | cons hmember _ ih =>
      obtain ⟨hentry⟩ := hmember
      rw [memberPaths_cons, memberPaths_cons]
      exact (hentry.map _).append ih
  · rw [memberPaths_eq_flatMap, memberPaths_eq_flatMap]
    exact hperm.flatMap_right _

/-- **The places of marks** in reordered trees are the same in another order. -/
theorem Reordered.perm_publicPaths (h : Reordered t t') : t.publicPaths.Perm t'.publicPaths := by
  induction t using Marked.induction generalizing t' with
  | scalar s =>
    cases h
    exact .refl _
  | array items ih =>
    obtain ⟨items', rfl, hitems⟩ := h.exists_array
    rw [publicPaths, publicPaths]
    refine perm_itemPaths 0 ?_
    rw [List.forall₂_iff_get] at hitems ⊢
    exact ⟨hitems.1, fun i hi hi' => ih _ (List.get_mem _ _) (hitems.2 i hi hi')⟩
  | object members ih =>
    obtain ⟨members', rfl, hmembers⟩ := h.exists_object
    rw [publicPaths_object, publicPaths_object]
    refine perm_memberPaths (hmembers.imp fun member hmember entry' hsame => ?_)
    have hpaths := ih member hmember hsame.node
    obtain ⟨key, mark, node⟩ := member
    obtain ⟨-⟩ := hsame
    cases mark with
    | true => exact .refl _
    | false => exact hpaths

/-! ### Merging -/

/-- Merged entries keep their marks, and their trees stay related if merging keeps them so. -/
theorem rel_mergeEntries {R : Marked → Marked → Prop}
    {base base' layer layer' : Option (Bool × Marked)}
    (hbase : Option.Rel (SameMark R) base base') (hlayer : Option.Rel (SameMark R) layer layer')
    (hmerge : ∀ b ∈ base, ∀ l ∈ layer, ∀ node' other', R b.2 node' → R l.2 other' →
      R (b.2.merge l.2) (node'.merge other')) :
    Option.Rel (SameMark R) (mergeEntries base layer) (mergeEntries base' layer') := by
  cases hbase with
  | none => rwa [mergeEntries_none_left, mergeEntries_none_left]
  | some hb =>
    cases hlayer with
    | none => exact .some hb
    | some hl =>
      obtain ⟨hnode⟩ := hb
      obtain ⟨hother⟩ := hl
      exact .some ⟨hmerge _ rfl _ rfl _ _ hnode hother⟩

/-- **Merging keeps trees reordered.** -/
theorem Reordered.merge {base base' layer layer' : Marked} (hbase : Reordered base base')
    (hlayer : Reordered layer layer') (hdistinct : base.Distinct) (hdistinct' : layer.Distinct) :
    Reordered (base.merge layer) (base'.merge layer') := by
  induction base using Marked.induction generalizing base' layer layer' with
  | scalar s =>
    cases hbase
    rwa [scalar_merge, scalar_merge]
  | array items ih =>
    obtain ⟨items', rfl, -⟩ := hbase.exists_array
    rwa [array_merge, array_merge]
  | object base ih =>
    obtain ⟨base', rfl, hmembers⟩ := hbase.exists_object
    rcases layer with s | items | layer
    · cases hlayer
      rw [merge_scalar, merge_scalar]
      exact .scalar s
    · obtain ⟨items', rfl, -⟩ := hlayer.exists_array
      rwa [merge_array, merge_array]
    · obtain ⟨layer', rfl, hothers⟩ := hlayer.exists_object
      have hmerged := hdistinct.merge hdistinct'
      have hmerged' := (hbase.distinct hdistinct).merge (hlayer.distinct hdistinct')
      rw [merge_object, distinct_object_iff] at hmerged hmerged'
      rw [distinct_object_iff] at hdistinct hdistinct'
      rw [merge_object, merge_object, reordered_object_iff,
        Members.permutes_iff_get? hmerged.1 hmerged'.1]
      intro key
      rw [get?_mergeMembers, get?_mergeMembers]
      refine rel_mergeEntries (hmembers.get? hdistinct.1 key) (hothers.get? hdistinct'.1 key) ?_
      intro entry hentry other hother node' other' hnode hlayer
      exact ih (key, entry) (Members.mem_of_get? hentry) hnode hlayer (hdistinct.2 key entry hentry)
        (hdistinct'.2 key other hother)

theorem reordered_foldl {trees trees' : List (Members (Bool × Marked))}
    {merged merged' : Members (Bool × Marked)}
    (h : List.Forall₂ (fun tree tree' => Reordered (.object tree) (.object tree')) trees trees')
    (hmerged : Reordered (.object merged) (.object merged'))
    (hdistinct : ∀ tree ∈ trees, (object tree).Distinct) (hdistinct' : (object merged).Distinct) :
    Reordered (.object (trees.foldl mergeMembers merged))
      (.object (trees'.foldl mergeMembers merged')) := by
  induction h generalizing merged merged' with
  | nil => exact hmerged
  | @cons tree tree' _ _ htree _ ih =>
    obtain ⟨hfirst, hrest⟩ := List.forall_mem_cons.1 hdistinct
    have hnext := hmerged.merge htree hdistinct' hfirst
    have hnext' := hdistinct'.merge hfirst
    simp only [merge_object] at hnext hnext'
    exact ih hnext hrest hnext'

end Marked

/-! ### Subsets -/

namespace Document

open ValuePath

variable {d d' slot slot' : Document} {paths paths' : List ValuePath}

/-- **Paths that cover the same places** of a document: each of them leads to something, and what
is at or below one of the first is what is at or below one of the others. -/
structure SameCover (d : Document) (paths paths' : List ValuePath) : Prop where
  found : ∀ p ∈ paths, ∃ value, d.find? p = some value
  found' : ∀ p ∈ paths', ∃ value, d.find? p = some value
  covered_iff : ∀ q value, d.find? q = some value → (Covered paths q ↔ Covered paths' q)

namespace SameCover

theorem symm (h : SameCover d paths paths') : SameCover d paths' paths :=
  ⟨h.found', h.found, fun q value hq => (h.covered_iff q value hq).symm⟩

/-- The same paths in any order. -/
theorem of_mem_iff (hfound : ∀ p ∈ paths, ∃ value, d.find? p = some value)
    (hpaths : ∀ p, p ∈ paths ↔ p ∈ paths') : SameCover d paths paths' :=
  ⟨hfound, fun p hp => hfound p ((hpaths p).2 hp), fun q _ _ => by simp only [Covered, hpaths]⟩

theorem root_mem (h : SameCover d paths paths') (hroot : [] ∈ paths) : [] ∈ paths' := by
  obtain ⟨p, hp, hpre⟩ := (h.covered_iff [] d rfl).1 ⟨[], hroot, List.prefix_rfl⟩
  exact List.prefix_nil.1 hpre ▸ hp

theorem ne_nil (h : SameCover d paths paths') (hne : paths ≠ []) : paths' ≠ [] := by
  obtain ⟨p, hp⟩ := List.exists_mem_of_ne_nil _ hne
  obtain ⟨value, hvalue⟩ := h.found p hp
  obtain ⟨p', hp', -⟩ := (h.covered_iff p value hvalue).1 ⟨p, hp, List.prefix_rfl⟩
  exact List.ne_nil_of_mem hp'

/-- A step that one of the first paths begins with is one that one of the others does. -/
theorem exists_mem (h : SameCover d paths paths') (hroot : [] ∉ paths) {step : Step}
    {rest : ValuePath} (hmem : step :: rest ∈ paths) : ∃ rest', step :: rest' ∈ paths' := by
  obtain ⟨value, hvalue⟩ := h.found _ hmem
  obtain ⟨p, hp, hpre⟩ := (h.covered_iff _ value hvalue).1 ⟨_, hmem, List.prefix_rfl⟩
  rcases p with _ | ⟨first, rest'⟩
  · exact absurd (h.symm.root_mem hp) hroot
  · obtain ⟨rfl, -⟩ := List.cons_prefix_cons.1 hpre
    exact ⟨rest', hp⟩

theorem exists_mem_iff (h : SameCover d paths paths') (hroot : [] ∉ paths) (step : Step) :
    (∃ rest, step :: rest ∈ paths) ↔ ∃ rest, step :: rest ∈ paths' :=
  ⟨fun ⟨_, hmem⟩ => h.exists_mem hroot hmem,
    fun ⟨_, hmem⟩ => h.symm.exists_mem (mt h.symm.root_mem hroot) hmem⟩

theorem nextLength_eq (h : SameCover d paths paths') (hroot : [] ∉ paths) :
    nextLength paths = nextLength paths' := by
  refine eq_of_forall_lt_iff fun i => ?_
  simp only [lt_nextLength_iff, exists_and_left, h.exists_mem_iff hroot]

/-- Below one step, the rest of the paths cover the same places. -/
theorem child (h : SameCover d paths paths') (hroot : [] ∉ paths) {step : Step} {there : Document}
    (hthere : d.child? step = some there) : SameCover there (tails step paths) (tails step paths') := by
  refine ⟨find?_of_mem_tails h.found hthere, find?_of_mem_tails h.found' hthere,
    fun q value hq => ?_⟩
  have hcovered := h.covered_iff (step :: q) value
    (by rw [find?_cons, hthere, Option.bind_some, hq])
  rwa [covered_cons_iff hroot, covered_cons_iff (mt h.symm.root_mem hroot)] at hcovered

end SameCover

/-- One step into reordered documents. -/
theorem Reordered.child? (h : Reordered d d') (hdistinct : d.Distinct) (step : Step) :
    Option.Rel Reordered (d.child? step) (d'.child? step) := by
  cases h with
  | scalar s => cases step <;> exact .none
  | array hitems =>
    rcases step with name | i
    · exact .none
    · exact forall₂_iff_getElem?.1 hitems i
  | object hmiddle hperm =>
    rcases step with name | i
    · have hmembers : Members.Permutes Reordered _ _ := ⟨_, hmiddle, hperm⟩
      exact hmembers.get? hdistinct.1 name
    · exact .none

/-- A step into the mirror of a reordered document leads to the mirror of a reordered part. -/
theorem Mirrors.exists_reordered (h : Mirrors d' paths slot) (hd : Reordered d d')
    (hdistinct : d.Distinct) (hroot : [] ∉ paths) {step : Step} {there here : Document}
    (hthere : d.child? step = some there) (hhere : slot.child? step = some here) :
    ∃ there', Reordered there there' ∧ Mirrors there' (tails step paths) here := by
  have hrel := hd.child? hdistinct step
  rw [hthere] at hrel
  generalize hthere' : d'.child? step = found at hrel
  cases hrel with
  | some hsame => exact ⟨_, hsame, h.child hroot hthere' hhere⟩

section Parts

variable {members part : Members Document} {items slots : List Document}
  (h' : Mirrors d' paths' slot') (hne : paths ≠ []) (hroot : [] ∉ paths)

include h' hne hroot

/-- A mirror of an object: one along paths with the same cover has the same keys, in some order. -/
theorem Mirrors.reordered_object (hd : Reordered (.object members) d')
    (hdistinct : (Document.object members).Distinct)
    (hcover : SameCover (.object members) paths paths') (hkeys : part.keys = nextKeys paths)
    (hparts : ∀ name there here, (Document.object members).child? (.key name) = some there →
      part.get? name = some here → ∀ there' here', Reordered there there' →
        Mirrors there' (tails (.key name) paths') here' → Reordered here here') :
    Reordered (.object part) slot' := by
  obtain ⟨members', rfl, -⟩ := hd.exists_object
  have hroot' : [] ∉ paths' := mt hcover.symm.root_mem hroot
  rcases h'.object_or_array (hcover.ne_nil hne) hroot' with
    ⟨_, part', ⟨⟩, rfl, hkeys'⟩ | ⟨_, _, ⟨⟩, -⟩
  have hdistinct₁ : part.Distinct := by
    rw [Members.Distinct, hkeys]
    exact nodup_nextKeys paths
  have hdistinct₂ : part'.Distinct := by
    rw [Members.Distinct, hkeys']
    exact nodup_nextKeys paths'
  rw [reordered_object_iff, Members.permutes_iff_get? hdistinct₁ hdistinct₂]
  intro name
  have hmem : name ∈ part'.keys ↔ name ∈ part.keys := by
    simp only [hkeys, hkeys', mem_nextKeys, hcover.exists_mem_iff hroot]
  rcases hhere : part.get? name with _ | here
  · rw [Members.get?_eq_none_iff.2 (mt hmem.1 (Members.get?_eq_none_iff.1 hhere))]
    exact .none
  · have hname := Members.has_iff.1 (Option.isSome_iff_exists.2 ⟨here, hhere⟩)
    obtain ⟨here', hhere'⟩ := Option.isSome_iff_exists.1 (Members.has_iff.2 (hmem.2 hname))
    obtain ⟨rest, hrest⟩ := mem_nextKeys.1 (hkeys ▸ hname)
    obtain ⟨there, hthere⟩ := child?_of_mem hcover.found hrest
    obtain ⟨there', hsame, hmirror⟩ := h'.exists_reordered hd hdistinct hroot' hthere hhere'
    rw [hhere']
    exact .some (hparts name there here hthere hhere there' here' hsame hmirror)

/-- A mirror of an array: one along paths with the same cover has the same length. -/
theorem Mirrors.reordered_array (hd : Reordered (.array items) d')
    (hdistinct : (Document.array items).Distinct)
    (hcover : SameCover (.array items) paths paths') (hlength : slots.length = nextLength paths)
    (hparts : ∀ i there here, (Document.array items).child? (.index i) = some there →
      slots[i]? = some here → ∀ there' here', Reordered there there' →
        Mirrors there' (tails (.index i) paths') here' → Reordered here here') :
    Reordered (.array slots) slot' := by
  obtain ⟨items', rfl, hitems⟩ := hd.exists_array
  have hroot' : [] ∉ paths' := mt hcover.symm.root_mem hroot
  rcases h'.object_or_array (hcover.ne_nil hne) hroot' with
    ⟨_, _, ⟨⟩, -⟩ | ⟨_, slots', ⟨⟩, rfl, hlength'⟩
  have hsame : slots.length = slots'.length := by
    rw [hlength, hlength', hcover.nextLength_eq hroot]
  refine .array (List.forall₂_iff_get.2 ⟨hsame, fun i hi hi' => ?_⟩)
  -- the slots reach as far as some path leads, so there is an item for each of them
  obtain ⟨j, rest, hij, hrest⟩ := lt_nextLength_iff.1 (hlength ▸ hi)
  obtain ⟨last, hlast⟩ := child?_of_mem hcover.found hrest
  have hj : j < items.length := (List.getElem?_eq_some_iff.1 hlast).1
  have hthere : (Document.array items).child? (.index i) = some items[i] :=
    List.getElem?_eq_getElem (by omega)
  obtain ⟨there', hitem, hmirror⟩ := h'.exists_reordered hd hdistinct hroot' hthere
    (List.getElem?_eq_getElem hi')
  exact hparts i items[i] slots[i] hthere (List.getElem?_eq_getElem hi) there' _ hitem hmirror

end Parts

/-- **Mirrors of reordered documents** along paths that cover the same places, in any order, are
reordered. -/
theorem Mirrors.reordered (h : Mirrors d paths slot) (h' : Mirrors d' paths' slot')
    (hd : Reordered d d') (hdistinct : d.Distinct) (hcover : SameCover d paths paths') :
    Reordered slot slot' := by
  induction h generalizing d' paths' slot' with
  | blank d =>
    obtain rfl : paths' = [] := not_not.1 fun hne => hcover.symm.ne_nil hne rfl
    rw [h'.eq_null]
    exact .refl _
  | whole hroot =>
    rw [h'.eq_of_nil_mem (hcover.root_mem hroot)]
    exact hd
  | object hne hroot hkeys hpart ih =>
    refine h'.reordered_object hne hroot hd hdistinct hcover hkeys ?_
    intro name there here hthere hhere there' here' hsame hmirror
    exact ih name there here hthere hhere hmirror hsame (hdistinct.child hthere)
      (hcover.child hroot hthere)
  | array hne hroot hlength hpart ih =>
    refine h'.reordered_array hne hroot hd hdistinct hcover hlength ?_
    intro i there here hthere hhere there' here' hsame hmirror
    exact ih i there here hthere hhere hmirror hsame (hdistinct.child hthere)
      (hcover.child hroot hthere)

/-- **Subsets of reordered documents** at paths that cover the same places, in any order, are
reordered. -/
theorem Reordered.subset (hd : Reordered d d') (hdistinct : d.Distinct)
    (hcover : SameCover d paths paths')
    (hfound' : ∀ p ∈ paths', ∃ value, d'.find? p = some value) :
    Reordered (d.subset paths) (d'.subset paths') := by
  rcases eq_or_ne paths [] with rfl | hne
  · obtain rfl : paths' = [] := not_not.1 fun hne => hcover.symm.ne_nil hne rfl
    exact .refl _
  · exact (mirrors_subset hne hcover.found).reordered
      (mirrors_subset (hcover.ne_nil hne) hfound') hd hdistinct hcover

end Document

/-- The public parts of reordered trees are reordered. -/
theorem Marked.Reordered.subset {t t' : Marked} (h : Reordered t t') (hdistinct : t.Distinct) :
    Document.Reordered (t.plain.subset t.publicPaths) (t'.plain.subset t'.publicPaths) :=
  h.plain.subset hdistinct.plain
    (.of_mem_iff (fun _ => find?_plain_of_mem hdistinct) fun _ => h.perm_publicPaths.mem_iff)
    fun _ => find?_plain_of_mem (h.distinct hdistinct)

end ConfigTree
