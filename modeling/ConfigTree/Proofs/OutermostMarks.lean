import ConfigTree.Proofs.Reordering

/-!
# The outermost marks

What is read off a marked tree: the document without the marks, and the list of the places of
marks. The document is the tree with the marks forgotten and nothing else
(`ConfigTree.Marked.Forgets`). And the list has the places of exactly those members that are marked
and not below a marked one (`ConfigTree.Marked.Outermost`), each once, in the order in which the
document is read: a place before those below it, and whatever is below one member or item before
whatever is below a later one (`ConfigTree.Document.Precedes`).

One step into a tree leads to an entry, and an outermost mark below the entry is one of the tree
unless the entry itself is marked (`ConfigTree.Marked.outermost_cons_iff`). Both facts follow the
tree from there.
-/

namespace ConfigTree

open ValuePath

/-! ### The order of places -/

namespace Document

/-- **The order of places** in a document, depth first: a place comes before those below it, and the
places below one item or member come before those below a later one. -/
inductive Precedes : Document → ValuePath → ValuePath → Prop
  /-- A document comes before its parts. -/
  | root {d : Document} {step : Step} {rest : ValuePath} : Precedes d [] (step :: rest)
  /-- Places in one part. -/
  | part {d child : Document} {step : Step} {p q : ValuePath} : d.child? step = some child →
      Precedes child p q → Precedes d (step :: p) (step :: q)
  /-- Places in two items. -/
  | items {items : List Document} {i j : Nat} {p q : ValuePath} : i < j →
      Precedes (.array items) (.index i :: p) (.index j :: q)
  /-- Places in two members. -/
  | members {members : Members Document} {first second : String} {i j : Nat} {p q : ValuePath} :
      i < j → members.keys[i]? = some first → members.keys[j]? = some second →
      Precedes (.object members) (.key first :: p) (.key second :: q)

/-- **Where no key is repeated, of two places at most one comes first.** -/
theorem Precedes.asymm {d : Document} {p q : ValuePath} (h : d.Precedes p q) (hd : d.Distinct) :
    ¬d.Precedes q p := by
  -- a key has one index, so that two members are not in both orders
  have hindex {members : Members Document} {key : String} {i j : Nat} (hkeys : members.Distinct)
      (hi : members.keys[i]? = some key) (hj : members.keys[j]? = some key) : i = j :=
    List.getElem?_inj (List.getElem?_eq_some_iff.1 hi).1 hkeys |>.1 (hi.trans hj.symm)
  intro h'
  induction h with
  | root => cases h'
  | part hchild _ ih =>
    cases h' with
    | part hchild' h' =>
      obtain rfl := Option.some.inj (hchild.symm.trans hchild')
      exact ih (hd.child hchild) h'
    | items hlt => exact lt_irrefl _ hlt
    | members hlt hfirst hsecond => exact hlt.ne (hindex hd.1 hfirst hsecond)
  | items hlt =>
    cases h' with
    | part => exact lt_irrefl _ hlt
    | items hlt' => exact lt_asymm hlt hlt'
  | members hlt hfirst hsecond =>
    cases h' with
    | part => exact hlt.ne (hindex hd.1 hfirst hsecond)
    | members hlt' hsecond' hfirst' =>
      obtain rfl := hindex hd.1 hfirst hfirst'
      obtain rfl := hindex hd.1 hsecond hsecond'
      exact lt_asymm hlt hlt'

end Document

namespace Marked

variable {t : Marked} {p q : ValuePath}

/-! ### Forgetting the marks -/

/-- **The document without the marks of a tree**: its arrays have the same items and its objects the
same members, in their order. -/
inductive Forgets : Marked → Document → Prop
  | scalar (s : Scalar) : Forgets (.scalar s) (.scalar s)
  | array {items : List Marked} {ds : List Document} : List.Forall₂ Forgets items ds →
      Forgets (.array items) (.array ds)
  | object {members : Members (Bool × Marked)} {ds : Members Document} :
      List.Forall₂ (Members.SameKey fun entry d => Forgets entry.2 d) members ds →
      Forgets (.object members) (.object ds)

theorem forgets_plain (t : Marked) : t.Forgets t.plain := by
  induction t using Marked.induction with
  | scalar s =>
    rw [plain]
    exact .scalar s
  | array items ih =>
    rw [plain, plainItems_eq_map]
    exact .array (List.forall₂_map_right_iff.2 (List.forall₂_same.2 ih))
  | object members ih =>
    rw [plain, plainMembers_eq_map]
    exact .object (List.forall₂_map_right_iff.2 (List.forall₂_same.2 fun member hmember =>
      .intro (ih member hmember)))

theorem eq_plain_of_forgets {d : Document} (h : t.Forgets d) : d = t.plain := by
  induction t using Marked.induction generalizing d with
  | scalar s =>
    cases h
    rw [plain]
  | array items ih =>
    obtain _ | hitems := h
    rw [plain, plainItems_eq_map, Document.array.injEq]
    induction hitems with
    | nil => rfl
    | cons hitem _ ihrest =>
      obtain ⟨hfirst, hrest⟩ := List.forall_mem_cons.1 ih
      rw [List.map_cons, hfirst hitem, ihrest hrest]
  | object members ih =>
    obtain _ | _ | hmembers := h
    rw [plain, plainMembers_eq_map, Document.object.injEq]
    induction hmembers with
    | nil => rfl
    | cons hmember _ ihrest =>
      obtain ⟨hfirst, hrest⟩ := List.forall_mem_cons.1 ih
      obtain ⟨hnode⟩ := hmember
      rw [List.map_cons, ihrest hrest]
      exact congrArg (fun d => (_, d) :: _) (hfirst hnode)

/-- **Only the document without the marks** is one. -/
theorem forgets_iff {d : Document} : t.Forgets d ↔ d = t.plain :=
  ⟨eq_plain_of_forgets, fun h => h ▸ forgets_plain t⟩

/-! ### Outermost marks -/

/-- **An outermost mark**: a mark at this path, and none above it. -/
def Outermost (entry : Bool × Marked) (p : ValuePath) : Prop :=
  MarkedAt entry p ∧ ∀ q, q <+: p → MarkedAt entry q → q = p

theorem markedAt_nil_iff {entry : Bool × Marked} : MarkedAt entry [] ↔ entry.1 = true := by
  obtain ⟨mark, node⟩ := entry
  simp [MarkedAt]

theorem outermost_nil_iff {entry : Bool × Marked} : Outermost entry [] ↔ entry.1 = true := by
  rw [Outermost, markedAt_nil_iff]
  exact and_iff_left fun q hq _ => List.prefix_nil.1 hq

theorem outermost_cons_iff {entry : Bool × Marked} {step : Step} {rest : ValuePath} :
    Outermost entry (step :: rest) ↔
      entry.1 = false ∧ ∃ next, entry.2.child? step = some next ∧ Outermost next rest := by
  constructor
  · rintro ⟨hmarked, houter⟩
    obtain ⟨next, hnext, hrest⟩ := markedAt_cons_iff.1 hmarked
    refine ⟨?_, next, hnext, hrest, fun q hq hmark => ?_⟩
    · refine Bool.eq_false_iff.2 fun hmark => ?_
      exact absurd (houter [] List.nil_prefix (markedAt_nil_iff.2 hmark)) (by simp)
    · have hstep := houter (step :: q) (List.cons_prefix_cons.2 ⟨rfl, hq⟩)
        (markedAt_cons_iff.2 ⟨next, hnext, hmark⟩)
      exact List.tail_eq_of_cons_eq hstep
  · rintro ⟨hfalse, next, hnext, hmarked, houter⟩
    refine ⟨markedAt_cons_iff.2 ⟨next, hnext, hmarked⟩, fun q hq hmark => ?_⟩
    rcases q with _ | ⟨first, q⟩
    · rw [markedAt_nil_iff, hfalse] at hmark
      exact absurd hmark Bool.false_ne_true
    · obtain ⟨rfl, hrest⟩ := List.cons_prefix_cons.1 hq
      obtain ⟨next', hnext', hmark⟩ := markedAt_cons_iff.1 hmark
      obtain rfl := Option.some.inj (hnext.symm.trans hnext')
      rw [houter q hrest hmark]

/-- **The list of the places of marks** has the outermost ones. -/
theorem mem_entryPaths_iff {entry : Bool × Marked} (h : entry.2.Distinct) :
    p ∈ entryPaths entry ↔ Outermost entry p := by
  induction p generalizing entry with
  | nil =>
    obtain ⟨_ | _, node⟩ := entry
    · simpa [entryPaths, outermost_nil_iff] using nil_not_mem_publicPaths node
    · simp [entryPaths, outermost_nil_iff]
  | cons step rest ih =>
    obtain ⟨_ | _, node⟩ := entry
    · rw [outermost_cons_iff, entryPaths, cons_mem_publicPaths_iff h]
      refine Iff.trans ?_ (and_iff_right rfl).symm
      exact exists_congr fun next => and_congr_right fun hnext => ih (h.child hnext)
    · simp [entryPaths, outermost_cons_iff]

theorem mem_publicPaths_iff (h : t.Distinct) : p ∈ t.publicPaths ↔ Outermost (false, t) p := by
  rw [← mem_entryPaths_iff h, entryPaths]

/-- The places in two items of an array come in the order of their indices. -/
theorem pairwise_itemPaths {R : ValuePath → ValuePath → Prop} {i : Nat} {items : List Marked}
    (hwithin : ∀ j (item : Marked), items[j]? = some item →
      item.publicPaths.Pairwise fun p q => R (.index (i + j) :: p) (.index (i + j) :: q))
    (hacross : ∀ j k p q, j < k → R (.index j :: p) (.index k :: q)) :
    (itemPaths i items).Pairwise R := by
  induction items generalizing i with
  | nil =>
    rw [itemPaths]
    exact .nil
  | cons item rest ih =>
    rw [itemPaths, List.pairwise_append, List.pairwise_map]
    refine ⟨hwithin 0 item rfl, ih fun j other hother => ?_, ?_⟩
    · have hlater := hwithin (j + 1) other hother
      rwa [show i + (j + 1) = i + 1 + j by omega] at hlater
    · rintro p hp q hq
      obtain ⟨p, -, rfl⟩ := List.mem_map.1 hp
      obtain ⟨j, q, rfl, hj⟩ := eq_index_of_mem_itemPaths hq
      exact hacross i j p q hj

/-- **The places of marks are listed in the order of the document.** -/
theorem pairwise_publicPaths (h : t.Distinct) : t.publicPaths.Pairwise t.plain.Precedes := by
  induction t using Marked.induction with
  | scalar s =>
    rw [publicPaths]
    exact .nil
  | array items ih =>
    rw [Distinct, distinctItems_iff] at h
    rw [publicPaths, plain, plainItems_eq_map]
    refine pairwise_itemPaths (fun j item hitem => ?_) fun j k p q hjk => .items hjk
    have hmem := List.mem_of_getElem? hitem
    refine (ih item hmem (h item hmem)).imp fun hpq => .part ?_ hpq
    rw [Nat.zero_add, Document.child?, List.getElem?_map, hitem, Option.map_some]
  | object members ih =>
    rw [Distinct, distinctMembers_iff] at h
    rw [publicPaths, plain, memberPaths_eq_flatMap, List.pairwise_flatMap]
    refine ⟨fun member hmember => ?_, List.pairwise_iff_getElem.2 fun i j hi hj hij => ?_⟩
    · rw [List.pairwise_map]
      obtain ⟨key, _ | _, node⟩ := member
      · refine (ih _ hmember (h.2 _ hmember)).imp fun hpq => .part ?_ hpq
        rw [Document.child?, get?_plainMembers, Members.get?_of_mem h.1 hmember, Option.map_some]
      · exact List.pairwise_singleton _ _
    · rintro p hp q hq
      obtain ⟨p, -, rfl⟩ := List.mem_map.1 hp
      obtain ⟨q, -, rfl⟩ := List.mem_map.1 hq
      refine .members hij ?_ ?_
      · rw [keys_plainMembers, Members.keys, List.getElem?_map, List.getElem?_eq_getElem hi,
          Option.map_some]
      · rw [keys_plainMembers, Members.keys, List.getElem?_map, List.getElem?_eq_getElem hj,
          Option.map_some]

/-- An item of an array is not marked. -/
theorem unmarked_of_child?_index {i : Nat} {entry : Bool × Marked}
    (h : t.child? (.index i) = some entry) : entry.1 = false := by
  rcases t with s | items | members <;> simp only [child?, reduceCtorEq] at h
  obtain ⟨item, -, rfl⟩ := Option.map_eq_some_iff.1 h
  rfl

/-- Nothing but a member of an object is marked. -/
theorem exists_key_of_markedAt (h : MarkedAt (false, t) p) : ∃ above name, p = key above name := by
  induction p generalizing t with
  | nil => exact absurd (markedAt_nil_iff.1 h) Bool.false_ne_true
  | cons step rest ih =>
    obtain ⟨next, hnext, hmark⟩ := markedAt_cons_iff.1 h
    rcases rest with _ | ⟨second, rest⟩
    · rcases step with name | i
      · exact ⟨[], name, rfl⟩
      · rw [markedAt_nil_iff, unmarked_of_child?_index hnext] at hmark
        exact absurd hmark Bool.false_ne_true
    · obtain ⟨above, name, heq⟩ := ih (markedAt_cons_iff.2 (markedAt_cons_iff.1 hmark))
      exact ⟨step :: above, name, congrArg (step :: ·) heq⟩

/-- **The list of public paths is that of the outermost marks.** What is read off a tree is the
document without its marks, and a list that has exactly the places of its outermost marks, once
each, in the order of the document. So none of these places is at or below another one; each ends in
a key, and the document has something there; and what is at or below one of them is what is at or
below a marked member. -/
theorem publicPaths_outermost (h : t.Distinct) :
    (∀ d, t.Forgets d ↔ d = t.plain) ∧
      (∀ p, p ∈ t.publicPaths ↔ Outermost (false, t) p) ∧ t.publicPaths.Nodup ∧
      t.publicPaths.Pairwise t.plain.Precedes ∧
      (∀ p ∈ t.publicPaths, ∀ q ∈ t.publicPaths, p <+: q → p = q) ∧
      (∀ p ∈ t.publicPaths, (∃ above name, p = key above name) ∧
        ∃ value, t.plain.find? p = some value) ∧
      ∀ q, Covered t.publicPaths q ↔ ∃ p, p <+: q ∧ MarkedAt (false, t) p := by
  have hmem : ∀ p, p ∈ t.publicPaths ↔ Outermost (false, t) p := fun p => mem_publicPaths_iff h
  have hordered := pairwise_publicPaths h
  refine ⟨fun d => forgets_iff, hmem, hordered.imp fun hpq => ?_, hordered, ?_, ?_, ?_⟩
  · rintro rfl
    exact hpq.asymm h.plain hpq
  · intro p hp q hq hpre
    exact ((hmem q).1 hq).2 p hpre ((hmem p).1 hp).1
  · exact fun p hp => ⟨exists_key_of_markedAt ((hmem p).1 hp).1, find?_plain_of_mem h hp⟩
  · intro q
    constructor
    · rintro ⟨p, hp, hpre⟩
      exact ⟨p, hpre, ((hmem p).1 hp).1⟩
    · rintro ⟨p, hpre, hmark⟩
      obtain ⟨outer, houter, hprefix⟩ := exists_mem_publicPaths_of_markedAt h hmark
      exact ⟨outer, houter, hprefix.trans hpre⟩

/-- A mark below another one is not listed, and one beside it in the same array is. -/
theorem publicPaths_of_nested_marks :
    ∃ t : Marked, t.Distinct ∧
      t.publicPaths = [[.key "a", .index 0, .key "b"], [.key "a", .index 1, .key "d"]] ∧
      t.publicPaths.Pairwise t.plain.Precedes ∧
      MarkedAt (false, t) [.key "a", .index 0, .key "b", .key "c"] ∧
      ¬Outermost (false, t) [.key "a", .index 0, .key "b", .key "c"] ∧
      Covered t.publicPaths [.key "a", .index 0, .key "b", .key "c"] := by
  let t : Marked := .object [("a", false, .array [
    .object [("b", true, .object [("c", true, .scalar .null)])],
    .object [("d", true, .scalar .null)]])]
  have ht : t.Distinct := by
    simp [t, Distinct, DistinctItems, DistinctMembers, Members.Distinct, Members.keys]
  have hpaths : t.publicPaths = [[.key "a", .index 0, .key "b"], [.key "a", .index 1, .key "d"]] := by
    cbv
  have hmark : MarkedAt (false, t) [.key "a", .index 0, .key "b", .key "c"] := ⟨_, rfl⟩
  obtain ⟨-, hmem, -, hordered, -, -, hcovered⟩ := publicPaths_outermost ht
  refine ⟨t, ht, hpaths, hordered, hmark, ?_, (hcovered _).2 ⟨_, List.prefix_rfl, hmark⟩⟩
  rw [← hmem, hpaths]
  decide

end Marked

end ConfigTree
