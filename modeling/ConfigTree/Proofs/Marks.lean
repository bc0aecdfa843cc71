import ConfigTree.Marked
import ConfigTree.Proofs.Subset

/-!
# The places of marks

What the list of outermost marked members of a tree says, step by step. One step into a
tree (`ConfigTree.Marked.child?`) leads to an entry, a tree together with the mark of its
member; and the places of marks that begin with this step are those of the entry
(`ConfigTree.Marked.tails_publicPaths`). So the places are those of members that the plain
document has (`ConfigTree.Marked.find?_plain_of_mem`), and they list the members of each
object in its order (`ConfigTree.Marked.nextKeys_memberPaths`).
-/

namespace ConfigTree

namespace Marked

open ValuePath

/-- **Induction on trees**, from the items of an array and the members of an object. -/
theorem induction {motive : Marked → Prop} (scalar : ∀ s, motive (.scalar s))
    (array : ∀ items, (∀ item ∈ items, motive item) → motive (.array items))
    (object : ∀ members, (∀ member ∈ members, motive member.2.2) → motive (.object members)) :
    ∀ t, motive t
  | .scalar s => scalar s
  | .array items => array items fun item hitem =>
    have : sizeOf item < sizeOf items := List.sizeOf_lt_of_mem hitem
    induction scalar array object item
  | .object members => object members fun member hmember =>
    have : sizeOf member < sizeOf members := List.sizeOf_lt_of_mem hmember
    induction scalar array object member.2.2
termination_by t => sizeOf t
decreasing_by
  · rw [Marked.array.sizeOf_spec]
    omega
  · obtain ⟨key, marked, node⟩ := member
    rw [Marked.object.sizeOf_spec]
    simp only [Prod.mk.sizeOf_spec] at this ⊢
    omega

/-! ### One step into a tree -/

/-- The entry one step into a tree: the tree there, and whether it is marked. -/
def child? : Marked → Step → Option (Bool × Marked)
  | .object members, .key name => Members.get? members name
  | .array items, .index i => items[i]?.map (false, ·)
  | _, _ => none

@[simp] theorem child?_scalar (s : Scalar) (step : Step) : child? (.scalar s) step = none := rfl

@[simp] theorem child?_empty (step : Step) : child? (.object []) step = none := by
  cases step <;> rfl

theorem plain_object (members : Members (Bool × Marked)) :
    (object members).plain = .object (plainMembers members) := by
  rw [plain]

theorem publicPaths_object (members : Members (Bool × Marked)) :
    (object members).publicPaths = memberPaths members := by
  rw [publicPaths]

theorem plainItems_eq_map (items : List Marked) : plainItems items = items.map plain := by
  induction items with
  | nil => rw [plainItems, List.map_nil]
  | cons item rest ih => rw [plainItems, ih, List.map_cons]

theorem get?_plainMembers (members : Members (Bool × Marked)) (name : String) :
    Members.get? (plainMembers members) name = (members.get? name).map (·.2.plain) := by
  induction members with
  | nil => rw [plainMembers_nil, Members.get?_nil, Members.get?_nil, Option.map_none]
  | cons member rest ih =>
    obtain ⟨key, marked, node⟩ := member
    rw [plainMembers, Members.get?_cons, Members.get?_cons, ih]
    split <;> rfl

/-- Forgetting the marks keeps the steps. -/
theorem child?_plain (t : Marked) (step : Step) :
    t.plain.child? step = (t.child? step).map (·.2.plain) := by
  rcases t with s | items | members
  · rw [plain]
    rfl
  · rw [plain, plainItems_eq_map]
    rcases step with name | i
    · rfl
    · rw [Document.child?, child?, List.getElem?_map, Option.map_map]
      rfl
  · rw [plain]
    rcases step with name | i
    · exact get?_plainMembers members name
    · rfl

theorem distinctItems_iff {items : List Marked} :
    DistinctItems items ↔ ∀ item ∈ items, item.Distinct := by
  induction items with
  | nil => simp [DistinctItems]
  | cons item rest ih => rw [DistinctItems, ih, List.forall_mem_cons]

theorem distinctMembers_iff {members : Members (Bool × Marked)} :
    DistinctMembers members ↔ ∀ member ∈ members, member.2.2.Distinct := by
  induction members with
  | nil => simp [DistinctMembers]
  | cons member rest ih => rw [DistinctMembers, ih, List.forall_mem_cons]

theorem Distinct.child {t node : Marked} {step : Step} {marked : Bool} (h : t.Distinct)
    (hchild : t.child? step = some (marked, node)) : node.Distinct := by
  rcases t with s | items | members <;> rcases step with name | i <;>
    simp only [child?, reduceCtorEq] at hchild
  · obtain ⟨item, hitem, heq⟩ := Option.map_eq_some_iff.1 hchild
    obtain ⟨-, rfl⟩ := Prod.mk.inj heq
    rw [Distinct, distinctItems_iff] at h
    exact h item (List.mem_of_getElem? hitem)
  · rw [Distinct, distinctMembers_iff] at h
    exact h.2 _ (Members.mem_of_get? hchild)

/-! ### The places that begin with a step -/

/-- The outermost marked members at an entry or below it. -/
def entryPaths : Bool × Marked → List ValuePath
  | (true, _) => [[]]
  | (false, node) => node.publicPaths

theorem memberPaths_cons (key : String) (entry : Bool × Marked) (rest : Members (Bool × Marked)) :
    memberPaths ((key, entry) :: rest) =
      (entryPaths entry).map (.key key :: ·) ++ memberPaths rest := by
  obtain ⟨_ | _, node⟩ := entry
  · rw [memberPaths]
    rfl
  · rw [memberPaths]
    rfl

theorem eq_key_of_mem_memberPaths {members : Members (Bool × Marked)} {p : ValuePath}
    (h : p ∈ memberPaths members) : ∃ name rest, p = .key name :: rest ∧ name ∈ members.keys := by
  induction members with
  | nil => simp [memberPaths] at h
  | cons member others ih =>
    obtain ⟨key, entry⟩ := member
    rw [memberPaths_cons, List.mem_append, List.mem_map] at h
    rcases h with ⟨rest, -, rfl⟩ | h
    · exact ⟨key, rest, rfl, by simp [Members.keys]⟩
    · obtain ⟨name, rest, rfl, hname⟩ := ih h
      exact ⟨name, rest, rfl, List.mem_cons_of_mem _ hname⟩

theorem eq_index_of_mem_itemPaths {i : Nat} {items : List Marked} {p : ValuePath}
    (h : p ∈ itemPaths i items) : ∃ j rest, p = .index j :: rest ∧ i ≤ j := by
  induction items generalizing i with
  | nil => simp [itemPaths] at h
  | cons item others ih =>
    rw [itemPaths, List.mem_append, List.mem_map] at h
    rcases h with ⟨rest, -, rfl⟩ | h
    · exact ⟨i, rest, rfl, le_rfl⟩
    · obtain ⟨j, rest, rfl, hj⟩ := ih h
      exact ⟨j, rest, rfl, by omega⟩

/-- The root is no member. -/
theorem nil_not_mem_publicPaths (t : Marked) : [] ∉ t.publicPaths := by
  intro h
  rcases t with s | items | members <;> rw [publicPaths] at h
  · simp at h
  · obtain ⟨j, rest, h, -⟩ := eq_index_of_mem_itemPaths h
    simp at h
  · obtain ⟨name, rest, h, -⟩ := eq_key_of_mem_memberPaths h
    simp at h

theorem tails_map_cons (step first : Step) (paths : List ValuePath) :
    tails step (paths.map (first :: ·)) = if first = step then paths else [] := by
  have hcomp : tail? step ∘ (first :: ·) = fun p => if first = step then some p else none := by
    funext p
    rfl
  rw [tails, List.filterMap_map, hcomp]
  split
  · exact List.filterMap_some
  · exact List.filterMap_eq_nil_iff.2 fun _ _ => rfl

theorem tails_memberPaths {members : Members (Bool × Marked)} (h : members.Distinct)
    (name : String) :
    tails (.key name) (memberPaths members) = (members.get? name).elim [] entryPaths := by
  induction members with
  | nil => simp [memberPaths, tails]
  | cons member rest ih =>
    obtain ⟨key, entry⟩ := member
    obtain ⟨hkey, hrest⟩ := List.nodup_cons.1 h
    rw [memberPaths_cons, tails_append, tails_map_cons, ih hrest, Members.get?_cons]
    by_cases hname : key = name
    · subst hname
      rw [if_pos rfl, if_pos rfl, Members.get?_eq_none_iff.2 hkey, Option.elim_none,
        Option.elim_some, List.append_nil]
    · rw [if_neg (by simpa using hname), if_neg hname, List.nil_append]

theorem tails_itemPaths (i j : Nat) (items : List Marked) :
    tails (.index (i + j)) (itemPaths i items) = (items[j]?).elim [] publicPaths := by
  induction items generalizing i j with
  | nil => simp [itemPaths, tails]
  | cons item rest ih =>
    rw [itemPaths, tails_append, tails_map_cons]
    rcases j with _ | j
    · have hlater : tails (.index i) (itemPaths (i + 1) rest) = [] := by
        refine tails_eq_nil_iff.2 fun p hp => ?_
        obtain ⟨k, tail, heq, hk⟩ := eq_index_of_mem_itemPaths hp
        simp only [List.cons.injEq, Step.index.injEq] at heq
        omega
      rw [Nat.add_zero, if_pos rfl, hlater, List.append_nil]
      rfl
    · rw [if_neg (by simp), List.nil_append, show i + (j + 1) = i + 1 + j by omega, ih]
      rfl

/-- **The places that begin with a step** are those of the entry it leads to. -/
theorem tails_publicPaths {t : Marked} (h : t.Distinct) (step : Step) :
    tails step t.publicPaths = (t.child? step).elim [] entryPaths := by
  rcases t with s | items | members <;> rw [publicPaths]
  · rfl
  · rcases step with name | j
    · refine tails_eq_nil_iff.2 fun p hp => ?_
      obtain ⟨i, rest, heq, -⟩ := eq_index_of_mem_itemPaths hp
      simp at heq
    · have hitems := tails_itemPaths 0 j items
      rw [Nat.zero_add] at hitems
      rw [hitems, child?]
      cases items[j]? <;> rfl
  · rw [Distinct] at h
    rcases step with name | j
    · exact tails_memberPaths h.1 name
    · refine tails_eq_nil_iff.2 fun p hp => ?_
      obtain ⟨name, rest, heq, -⟩ := eq_key_of_mem_memberPaths hp
      simp at heq

/-- A place of a mark, a step at a time. -/
theorem cons_mem_publicPaths_iff {t : Marked} (h : t.Distinct) {step : Step} {rest : ValuePath} :
    step :: rest ∈ t.publicPaths ↔
      ∃ entry, t.child? step = some entry ∧ rest ∈ entryPaths entry := by
  rw [← mem_tails, tails_publicPaths h]
  cases t.child? step <;> simp

/-! ### The places in the plain document -/

/-- **A marked member is a member** of the plain document. -/
theorem find?_plain_of_mem {t : Marked} {p : ValuePath} (h : t.Distinct) (hp : p ∈ t.publicPaths) :
    ∃ value, t.plain.find? p = some value := by
  induction p generalizing t with
  | nil => exact absurd hp (nil_not_mem_publicPaths t)
  | cons step rest ih =>
    obtain ⟨⟨marked, node⟩, hchild, hrest⟩ := (cons_mem_publicPaths_iff h).1 hp
    rw [Document.find?_cons, child?_plain, hchild]
    cases marked with
    | true =>
      obtain rfl : rest = [] := by simpa [entryPaths] using hrest
      exact ⟨node.plain, rfl⟩
    | false => exact ih (h.child hchild) hrest

/-- What the places say below an unmarked part: they are those of the tree there. -/
theorem tailsAt_publicPaths {t : Marked} {q : ValuePath} {d : Document} (h : t.Distinct)
    (habove : ∀ p ∈ t.publicPaths, ¬p <+: q) (hd : t.plain.find? q = some d) :
    ∃ node : Marked, node.Distinct ∧ node.plain = d ∧
      tailsAt q t.publicPaths = node.publicPaths := by
  induction q generalizing t with
  | nil => exact ⟨t, h, Option.some.inj hd, rfl⟩
  | cons step rest ih =>
    rw [Document.find?_cons, child?_plain] at hd
    rw [tailsAt_cons, tails_publicPaths h]
    rcases hchild : t.child? step with _ | ⟨_ | _, node⟩ <;> rw [hchild] at hd
    · simp at hd
    · refine ih (h.child hchild) (fun p hp hpre => habove (step :: p) ?_ ?_) hd
      · exact (cons_mem_publicPaths_iff h).2 ⟨_, hchild, hp⟩
      · exact List.cons_prefix_cons.2 ⟨rfl, hpre⟩
    · -- a marked member at the first step would be a place above `q`
      refine absurd (habove [step] ?_) (not_not.2 ?_)
      · exact (cons_mem_publicPaths_iff h).2 ⟨_, hchild, by simp [entryPaths]⟩
      · exact List.cons_prefix_cons.2 ⟨rfl, List.nil_prefix⟩

/-! ### Entries below an entry -/

/-- The entry at a path below an entry. -/
def follow : Bool × Marked → ValuePath → Option (Bool × Marked)
  | entry, [] => some entry
  | entry, step :: rest => (entry.2.child? step).bind (follow · rest)

@[simp] theorem follow_nil (entry : Bool × Marked) : follow entry [] = some entry := rfl

theorem follow_cons (entry : Bool × Marked) (step : Step) (rest : ValuePath) :
    follow entry (step :: rest) = (entry.2.child? step).bind (follow · rest) := rfl

/-- Where no step leads on, only the entry itself can be followed. -/
theorem eq_nil_of_follow {entry next : Bool × Marked} {p : ValuePath}
    (hchild : ∀ step, entry.2.child? step = none) (h : follow entry p = some next) : p = [] := by
  rcases p with _ | ⟨step, rest⟩
  · rfl
  · simp [follow_cons, hchild] at h

/-- **A mark** at a path below an entry. -/
def MarkedAt (entry : Bool × Marked) (p : ValuePath) : Prop :=
  ∃ node, follow entry p = some (true, node)

theorem markedAt_cons_iff {entry : Bool × Marked} {step : Step} {rest : ValuePath} :
    MarkedAt entry (step :: rest) ↔
      ∃ next, entry.2.child? step = some next ∧ MarkedAt next rest := by
  constructor
  · rintro ⟨node, h⟩
    obtain ⟨next, hnext, h⟩ := Option.bind_eq_some_iff.1 h
    exact ⟨next, hnext, node, h⟩
  · rintro ⟨next, hnext, node, h⟩
    exact ⟨node, Option.bind_eq_some_iff.2 ⟨next, hnext, h⟩⟩

/-- Whether a tree is marked itself does not matter below it. -/
theorem MarkedAt.of_unmarked {node : Marked} {p : ValuePath} (h : MarkedAt (false, node) p)
    (marked : Bool) : MarkedAt (marked, node) p := by
  rcases p with _ | ⟨step, rest⟩
  · obtain ⟨other, hother⟩ := h
    simp at hother
  · exact markedAt_cons_iff.2 (markedAt_cons_iff.1 h)

/-- The places of marks have marks. -/
theorem markedAt_of_mem_publicPaths {t : Marked} {p : ValuePath} (h : t.Distinct)
    (hp : p ∈ t.publicPaths) : MarkedAt (false, t) p := by
  induction p generalizing t with
  | nil => exact absurd hp (nil_not_mem_publicPaths t)
  | cons step rest ih =>
    obtain ⟨⟨marked, node⟩, hchild, hrest⟩ := (cons_mem_publicPaths_iff h).1 hp
    refine markedAt_cons_iff.2 ⟨_, hchild, ?_⟩
    cases marked with
    | true =>
      obtain rfl : rest = [] := by simpa [entryPaths] using hrest
      exact ⟨node, rfl⟩
    | false => exact ih (h.child hchild) hrest

/-- **Every mark is at or below the place of one**. -/
theorem exists_mem_publicPaths_of_markedAt {t : Marked} {p : ValuePath} (h : t.Distinct)
    (hp : MarkedAt (false, t) p) : ∃ q ∈ t.publicPaths, q <+: p := by
  induction p generalizing t with
  | nil =>
    obtain ⟨node, hnode⟩ := hp
    simp at hnode
  | cons step rest ih =>
    obtain ⟨⟨marked, node⟩, hchild, hrest⟩ := markedAt_cons_iff.1 hp
    cases marked with
    | true =>
      -- the first mark on the way hides the ones below it
      refine ⟨[step], (cons_mem_publicPaths_iff h).2 ⟨_, hchild, by simp [entryPaths]⟩, ?_⟩
      exact List.cons_prefix_cons.2 ⟨rfl, List.nil_prefix⟩
    | false =>
      obtain ⟨q, hq, hpre⟩ := ih (h.child hchild) hrest
      exact ⟨step :: q, (cons_mem_publicPaths_iff h).2 ⟨_, hchild, hq⟩,
        List.cons_prefix_cons.2 ⟨rfl, hpre⟩⟩

/-! ### The order of the places -/

/-- Paths that all begin with one key add this key, if anything. -/
theorem foldl_addKey_map (key : String) (paths : List ValuePath) (keys : List String) :
    (paths.map (.key key :: ·)).foldl addKey keys =
      if paths = [] ∨ key ∈ keys then keys else keys ++ [key] := by
  induction paths generalizing keys with
  | nil => simp
  | cons p rest ih =>
    rw [List.map_cons, List.foldl_cons, addKey]
    by_cases hkey : key ∈ keys
    · simp [hkey, ih]
    · simp [hkey, ih]

theorem foldl_addKey_memberPaths (members : Members (Bool × Marked)) (keys : List String) :
    ∃ more, (memberPaths members).foldl addKey keys = keys ++ more ∧ more.Sublist members.keys := by
  induction members generalizing keys with
  | nil => exact ⟨[], by simp [memberPaths], List.Sublist.slnil⟩
  | cons member rest ih =>
    obtain ⟨key, entry⟩ := member
    rw [memberPaths_cons, List.foldl_append, foldl_addKey_map]
    split
    · obtain ⟨more, hmore, hsub⟩ := ih keys
      exact ⟨more, hmore, hsub.cons key⟩
    · obtain ⟨more, hmore, hsub⟩ := ih (keys ++ [key])
      refine ⟨key :: more, ?_, hsub.cons_cons key⟩
      rw [hmore, List.append_assoc, List.singleton_append]

/-- **The places list the members of an object in its order.** -/
theorem nextKeys_memberPaths (members : Members (Bool × Marked)) :
    (nextKeys (memberPaths members)).Sublist members.keys := by
  obtain ⟨more, hmore, hsub⟩ := foldl_addKey_memberPaths members []
  rw [nextKeys, hmore]
  exact hsub

end Marked

end ConfigTree
