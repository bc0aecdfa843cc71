import ConfigTree.Proofs.Merge
import Mathlib.Data.List.Infix

/-!
# Which tree of a chain wins

A chain of trees is merged from left to right (`ConfigTree.Marked.mergeAll`), and at each path
of keys three rules say what comes of it. They all ask where a tree last **ended**, that is, held
a scalar or an array (`ConfigTree.Marked.EndsAt`): such a tree replaces whatever the trees before
it hold there and below.

* The value is that of the last tree that ended at the path or above it, unless a later tree
  holds the path, which then is an object.
* The members of an object come in the order in which the trees after that one first have them.
* A member is marked if a tree marks it that comes after the last one that ended above the path.

These rules are the fields of `ConfigTree.Marked.Precedence`. One merge says of each path whether
both sides are merged there or the overlay alone is left (`ConfigTree.Marked.at?_merge`), and from
this one more tree at the end of a chain keeps the rules (`ConfigTree.Marked.Precedence.concat`).
-/

namespace ConfigTree

/-! ### The last place of a property -/

section LastPlace

variable {α : Type} {P : α → Prop} [DecidablePred P]

/-- **The last place**, counted from one, of an item with a property; zero if no item has it. -/
def lastPlace (P : α → Prop) [DecidablePred P] (xs : List α) : Nat :=
  xs.length - xs.reverse.findIdx (P ·)

/-- The item at the last place, if some item has the property. -/
def last? (P : α → Prop) [DecidablePred P] (xs : List α) : Option α :=
  (xs.take (lastPlace P xs)).getLast?

/-- The items after the last place. -/
def afterLast (P : α → Prop) [DecidablePred P] (xs : List α) : List α :=
  xs.drop (lastPlace P xs)

theorem lastPlace_le (xs : List α) : lastPlace P xs ≤ xs.length := Nat.sub_le _ _

theorem lastPlace_concat_of_pos {x : α} (h : P x) (xs : List α) :
    lastPlace P (xs ++ [x]) = xs.length + 1 := by
  simp [lastPlace, List.findIdx_cons, h]

theorem lastPlace_concat_of_neg {x : α} (h : ¬P x) (xs : List α) :
    lastPlace P (xs ++ [x]) = lastPlace P xs := by
  simp [lastPlace, List.findIdx_cons, h]

theorem last?_concat_of_pos {x : α} (h : P x) (xs : List α) : last? P (xs ++ [x]) = some x := by
  rw [last?, lastPlace_concat_of_pos h, List.take_of_length_le (by simp), List.getLast?_concat]

theorem last?_concat_of_neg {x : α} (h : ¬P x) (xs : List α) :
    last? P (xs ++ [x]) = last? P xs := by
  rw [last?, lastPlace_concat_of_neg h, List.take_append_of_le_length (lastPlace_le xs), last?]

theorem afterLast_concat_of_pos {x : α} (h : P x) (xs : List α) :
    afterLast P (xs ++ [x]) = [] := by
  rw [afterLast, lastPlace_concat_of_pos h]
  exact List.drop_of_length_le (by simp)

theorem afterLast_concat_of_neg {x : α} (h : ¬P x) (xs : List α) :
    afterLast P (xs ++ [x]) = afterLast P xs ++ [x] := by
  rw [afterLast, lastPlace_concat_of_neg h, List.drop_append_of_le_length (lastPlace_le xs),
    afterLast]

end LastPlace

/-- A list without repetitions is the list of its first occurrences. -/
theorem eraseDups_of_nodup {xs : List String} (h : xs.Nodup) : xs.eraseDups = xs := by
  induction xs with
  | nil => rfl
  | cons x xs ih =>
    obtain ⟨hx, hxs⟩ := List.nodup_cons.1 h
    have hfilter : xs.filter (fun y => !y == x) = xs := List.filter_eq_self.2 fun y hy => by
      have hne : y ≠ x := by
        rintro rfl
        exact hx hy
      simpa using hne
    rw [List.eraseDups_cons, hfilter, ih hxs]

namespace Marked

/-! ### Entries at paths of keys -/

/-- Whether a tree is an object. -/
def isObject : Marked → Bool
  | .object _ => true
  | _ => false

theorem eq_object_of_isObject {t : Marked} (h : t.isObject = true) :
    ∃ members, t = .object members := by
  cases t with
  | object members => exact ⟨members, rfl⟩
  | scalar s => simp [isObject] at h
  | array items => simp [isObject] at h

/-- **The entry of a tree at a path of keys.** The root is an entry without a mark. -/
def at? (t : Marked) (p : List String) : Option (Bool × Marked) := follow (false, t) (p.map .key)

/-- The keys of the object that a tree holds at a path, if it holds one. -/
def keysAt (p : List String) (t : Marked) : List String :=
  match t.at? p with
  | some (_, .object members) => Members.keys members
  | _ => []

/-- **A tree ends at a path** where it holds a scalar or an array. -/
def EndsAt (p : List String) (t : Marked) : Prop := ∃ entry ∈ t.at? p, entry.2.isObject = false

/-- A tree ends at a path or at one above it, the root apart. -/
def EndsOn (p : List String) (t : Marked) : Prop := ∃ q ∈ p.inits, q ≠ [] ∧ EndsAt q t

/-- A tree ends above a path, and not at the root. -/
def EndsAbove (p : List String) (t : Marked) : Prop := ∃ q ∈ p.inits, q ≠ [] ∧ q ≠ p ∧ EndsAt q t

instance (p : List String) : DecidablePred (EndsAt p) := fun t =>
  inferInstanceAs (Decidable (∃ entry ∈ t.at? p, entry.2.isObject = false))

instance (p : List String) : DecidablePred (EndsOn p) := fun t =>
  inferInstanceAs (Decidable (∃ q ∈ p.inits, q ≠ [] ∧ EndsAt q t))

instance (p : List String) : DecidablePred (EndsAbove p) := fun t =>
  inferInstanceAs (Decidable (∃ q ∈ p.inits, q ≠ [] ∧ q ≠ p ∧ EndsAt q t))

theorem follow_append (entry : Bool × Marked) (p q : ValuePath) :
    follow entry (p ++ q) = (follow entry p).bind (follow · q) := by
  induction p generalizing entry with
  | nil => rfl
  | cons step p ih =>
    rw [List.cons_append, follow_cons, follow_cons]
    cases entry.2.child? step with
    | none => rfl
    | some next => exact ih next

/-- No key leads on from a scalar or an array. -/
theorem child?_key_of_not_object {t : Marked} (h : t.isObject = false) (key : String) :
    t.child? (.key key) = none := by
  cases t with
  | object members => simp [isObject] at h
  | scalar s => rfl
  | array items => rfl

theorem follow_key_of_not_object {entry : Bool × Marked} {p : List String}
    (h : entry.2.isObject = false) (hp : p ≠ []) : follow entry (p.map .key) = none := by
  obtain ⟨key, rest, rfl⟩ := List.exists_cons_of_ne_nil hp
  rw [List.map_cons, follow_cons, child?_key_of_not_object h, Option.bind_none]

/-- Below an entry its mark does not matter. -/
theorem follow_eq_at? {p : List String} (entry : Bool × Marked) (hp : p ≠ []) :
    follow entry (p.map .key) = entry.2.at? p := by
  obtain ⟨key, rest, rfl⟩ := List.exists_cons_of_ne_nil hp
  rfl

theorem at?_cons (members : Members (Bool × Marked)) (key : String) (rest : List String) :
    at? (.object members) (key :: rest) =
      (members.get? key).bind (follow · (rest.map .key)) := rfl

theorem endsAt_cons_iff {members : Members (Bool × Marked)} {key : String} {rest : List String} :
    EndsAt (key :: rest) (.object members) ↔
      ∃ entry, members.get? key = some entry ∧ EndsAt rest entry.2 := by
  rw [EndsAt, at?_cons]
  rcases members.get? key with _ | entry
  · simp
  · rcases eq_or_ne rest [] with rfl | hrest
    · simp [EndsAt, at?]
    · simp [EndsAt, follow_eq_at? entry hrest]

theorem endsAbove_cons_iff {members : Members (Bool × Marked)} {key : String}
    {rest : List String} :
    EndsAbove (key :: rest) (.object members) ↔
      ∃ entry, members.get? key = some entry ∧ ∃ q ∈ rest.inits, q ≠ rest ∧ EndsAt q entry.2 := by
  constructor
  · rintro ⟨_ | ⟨first, q⟩, hq, hne, hproper, hends⟩
    · exact absurd rfl hne
    · obtain ⟨rfl, hrest⟩ := List.cons_prefix_cons.1 ((List.mem_inits _ _).1 hq)
      obtain ⟨entry, hentry, hends⟩ := endsAt_cons_iff.1 hends
      exact ⟨entry, hentry, q, (List.mem_inits _ _).2 hrest, by simpa using hproper, hends⟩
  · rintro ⟨entry, hentry, q, hq, hproper, hends⟩
    refine ⟨key :: q, ?_, List.cons_ne_nil _ _, by simpa using hproper,
      endsAt_cons_iff.2 ⟨entry, hentry, hends⟩⟩
    exact (List.mem_inits _ _).2 (List.cons_prefix_cons.2 ⟨rfl, (List.mem_inits _ _).1 hq⟩)

/-- An object does not end at its root, so that it ends above a path where its parts do. -/
theorem endsAbove_object_iff {inner : Members (Bool × Marked)} {p : List String} :
    EndsAbove p (.object inner) ↔ ∃ q ∈ p.inits, q ≠ p ∧ EndsAt q (.object inner) := by
  refine ⟨fun ⟨q, hq, _, hproper, hends⟩ => ⟨q, hq, hproper, hends⟩, ?_⟩
  rintro ⟨q, hq, hproper, hends⟩
  refine ⟨q, hq, ?_, hproper, hends⟩
  rintro rfl
  simp [EndsAt, at?, isObject] at hends

/-- A tree that ends above a path does not hold it. -/
theorem at?_of_endsAbove {t : Marked} {p : List String} (h : EndsAbove p t) : t.at? p = none := by
  obtain ⟨q, hq, -, hproper, entry, hentry, hends⟩ := h
  obtain ⟨rest, rfl⟩ := (List.mem_inits _ _).1 hq
  have hrest : rest ≠ [] := by
    rintro rfl
    exact hproper (List.append_nil q).symm
  rw [at?, List.map_append, follow_append, show follow (false, t) (q.map .key) = some entry from
    hentry, Option.bind_some, follow_key_of_not_object hends hrest]

/-- A tree that ends at a path or above it does one of the two. -/
theorem endsOn_iff {t : Marked} {p : List String} (hp : p ≠ []) :
    EndsOn p t ↔ EndsAt p t ∨ EndsAbove p t := by
  constructor
  · rintro ⟨q, hq, hne, hends⟩
    rcases eq_or_ne q p with rfl | hproper
    · exact Or.inl hends
    · exact Or.inr ⟨q, hq, hne, hproper, hends⟩
  · rintro (hends | ⟨q, hq, hne, -, hends⟩)
    · exact ⟨p, (List.mem_inits _ _).2 (List.prefix_refl p), hp, hends⟩
    · exact ⟨q, hq, hne, hends⟩

theorem not_endsAbove_of_not_endsOn {t : Marked} {p : List String} (h : ¬EndsOn p t) :
    ¬EndsAbove p t := fun ⟨q, hq, hne, _, hends⟩ => h ⟨q, hq, hne, hends⟩

theorem not_endsOn_nil (t : Marked) : ¬EndsOn [] t := by
  rintro ⟨q, hq, hne, -⟩
  exact hne (List.prefix_nil.1 ((List.mem_inits _ _).1 hq))

theorem not_endsAbove_nil (t : Marked) : ¬EndsAbove [] t := by
  rintro ⟨q, hq, hne, -⟩
  exact hne (List.prefix_nil.1 ((List.mem_inits _ _).1 hq))

theorem Distinct.follow {entry next : Bool × Marked} {p : ValuePath} (h : entry.2.Distinct)
    (hnext : follow entry p = some next) : next.2.Distinct := by
  induction p generalizing entry with
  | nil => exact Option.some.inj hnext ▸ h
  | cons step rest ih =>
    obtain ⟨child, hchild, hrest⟩ := Option.bind_eq_some_iff.1 hnext
    exact ih (h.child hchild) hrest

/-! ### One merge -/

/-- Where the sides are not both objects, a merge leads on as the overlay does. -/
theorem follow_mergeEntries_of_not_object {base : Option (Bool × Marked)} {layer : Bool × Marked}
    {p : List String} (hp : p ≠ [])
    (h : layer.2.isObject = false ∨ ∀ entry ∈ base, entry.2.isObject = false) :
    (mergeEntries base (some layer)).bind (follow · (p.map .key)) = layer.2.at? p := by
  rcases base with _ | base
  · exact follow_eq_at? layer hp
  · have hmerge : (mergeEntry base layer).2 = layer.2 := merge_of_not_object fun b o hb hl => by
      rcases h with h | h
      · simp [hl, isObject] at h
      · simpa [hb, isObject] using h base rfl
    rw [mergeEntries, Option.bind_some, follow_eq_at? _ hp, hmerge]

theorem endsAbove_cons_object_iff {members inner : Members (Bool × Marked)} {key : String}
    {mark : Bool} {rest : List String} (h : members.get? key = some (mark, .object inner)) :
    EndsAbove (key :: rest) (.object members) ↔ EndsAbove rest (.object inner) := by
  rw [endsAbove_cons_iff, endsAbove_object_iff]
  simp [h]

/-- **One merge, path by path**: where the overlay does not end above a path, what the two sides
hold there is merged; where it does, nothing is there. -/
theorem at?_merge (base layer : Members (Bool × Marked)) (p : List String) :
    ((object base).merge (object layer)).at? p =
      if EndsAbove p (object layer) then none
      else mergeEntries ((object base).at? p) ((object layer).at? p) := by
  induction p generalizing base layer with
  | nil =>
    rw [if_neg (not_endsAbove_nil _), merge_object]
    exact congrArg some (mergeEntry_object base layer).symm
  | cons key rest ih =>
    rw [merge_object, at?_cons, at?_cons, at?_cons, get?_mergeMembers]
    rcases hlayer : layer.get? key with _ | ⟨mark, node⟩
    · rw [if_neg (by simp [endsAbove_cons_iff, hlayer]), mergeEntries_none_right, Option.bind_none,
        mergeEntries_none_right]
    rcases eq_or_ne rest [] with rfl | hrest
    · rw [if_neg (by simp [endsAbove_cons_iff])]
      simp
    have hnode : (some (mark, node)).bind (follow · (rest.map .key)) = node.at? rest :=
      follow_eq_at? (mark, node) hrest
    rw [hnode]
    cases hobject : node.isObject with
    | false =>
      -- the overlay ends one step above the rest
      have hends : EndsAbove (key :: rest) (.object layer) := endsAbove_cons_iff.2
        ⟨_, hlayer, [], (List.mem_inits _ _).2 List.nil_prefix, hrest.symm, _, rfl, hobject⟩
      rw [if_pos hends, follow_mergeEntries_of_not_object hrest (Or.inl hobject), ← hnode]
      exact follow_key_of_not_object hobject hrest
    | true =>
      obtain ⟨inner, rfl⟩ := eq_object_of_isObject hobject
      rw [if_congr (endsAbove_cons_object_iff hlayer) rfl rfl]
      by_cases hbase : ∀ entry ∈ base.get? key, entry.2.isObject = false
      · have hnone : (base.get? key).bind (follow · (rest.map .key)) = none :=
          Option.bind_eq_none_iff.2 fun entry hentry =>
            follow_key_of_not_object (hbase entry hentry) hrest
        rw [follow_mergeEntries_of_not_object hrest (Or.inr hbase), hnone, mergeEntries_none_left]
        split
        · rw [at?_of_endsAbove ‹_›]
        · rfl
      · -- both sides hold an object at the first key
        obtain ⟨⟨mark', node'⟩, hentry, hnode'⟩ := not_forall₂.1 hbase
        obtain ⟨outer, rfl⟩ := eq_object_of_isObject (Bool.of_not_eq_false hnode')
        rw [hentry, mergeEntries, Option.bind_some, Option.bind_some, follow_eq_at? _ hrest,
          follow_eq_at? _ hrest]
        exact ih outer inner

/-! ### A chain of merges -/

/-- **A chain of merges**: the trees merged from left to right. -/
def mergeAll : List Marked → Marked
  | [] => .object []
  | first :: rest => rest.foldl merge first

theorem mergeAll_concat {trees : List Marked} {layer : Members (Bool × Marked)} :
    mergeAll (trees ++ [.object layer]) = (mergeAll trees).merge (.object layer) := by
  cases trees with
  | nil => rw [mergeAll, merge_object, mergeMembers_nil]; rfl
  | cons first rest => rw [List.cons_append, mergeAll, mergeAll, List.foldl_concat]

/-- A chain of objects comes to an object. -/
theorem exists_mergeAll_eq {trees : List Marked} (h : ∀ t ∈ trees, t.isObject = true) :
    ∃ members, mergeAll trees = .object members := by
  induction trees using List.reverseRecOn with
  | nil => exact ⟨[], rfl⟩
  | append_singleton trees t ih =>
    obtain ⟨htrees, ht⟩ := List.forall_mem_append.1 h
    obtain ⟨base, hbase⟩ := ih htrees
    obtain ⟨layer, rfl⟩ := eq_object_of_isObject (ht t List.mem_cons_self)
    rw [mergeAll_concat, hbase, merge_object]
    exact ⟨_, rfl⟩

/-- **What a chain of trees holds at a path of keys**, said of each tree alone. -/
structure Precedence (trees : List Marked) (p : List String) (found : Option (Bool × Marked)) :
    Prop where
  /-- A path that some tree holds after the last one that ended on it is that of an object. -/
  object : (∃ t ∈ afterLast (EndsOn p) trees, ∃ entry, t.at? p = some entry) →
    ∃ mark members, found = some (mark, .object members)
  /-- Otherwise a tree that was the last to end on it, and did so at the path itself, is there
  as it ended. -/
  ended : (∀ t ∈ afterLast (EndsOn p) trees, t.at? p = none) →
    ∀ t ∈ last? (EndsOn p) trees, EndsAt p t → found.map Prod.snd = (t.at? p).map Prod.snd
  /-- Otherwise nothing is there. -/
  absent : p ≠ [] → (∀ t ∈ afterLast (EndsOn p) trees, t.at? p = none) →
    (∀ t ∈ last? (EndsOn p) trees, ¬EndsAt p t) → found = none
  /-- The members of an object are in the order in which the trees after that one first have
  them. -/
  order : ∀ mark members, found = some (mark, .object members) →
    Members.keys members = ((afterLast (EndsOn p) trees).flatMap (keysAt p)).eraseDups
  /-- What is there is marked if a tree marks it after the last one that ended above the path. -/
  marked : (∃ node, found = some (true, node)) ↔
    ∃ t ∈ afterLast (EndsAbove p) trees, ∃ node, t.at? p = some (true, node)

/-- The first occurrences among the keys of an object and of one that is merged over it. -/
theorem keys_mergeMembers_of_eraseDups {base layer : Members (Bool × Marked)} {keys : List String}
    (hbase : base.keys = keys.eraseDups) (hlayer : layer.Distinct) :
    (mergeMembers base layer).keys = (keys ++ layer.keys).eraseDups := by
  have hfilter : layer.keys.removeAll keys = layer.keys.filter fun key => !base.has key := by
    refine List.filter_congr fun key _ => ?_
    have hhas : base.has key = decide (key ∈ keys) := by
      rw [Bool.eq_iff_iff, Members.has_iff, hbase, List.mem_eraseDups, decide_eq_true_iff]
    rw [hhas, List.elem_eq_mem]
  rw [keys_mergeMembers, List.eraseDups_append, hfilter, hbase,
    eraseDups_of_nodup (List.Pairwise.filter _ hlayer)]

theorem keysAt_of_none {t : Marked} {p : List String} (h : t.at? p = none) : keysAt p t = [] := by
  rw [keysAt, h]

theorem marked_mergeEntries_iff {base layer : Option (Bool × Marked)} :
    (∃ node, mergeEntries base layer = some (true, node)) ↔
      (∃ node, base = some (true, node)) ∨ ∃ node, layer = some (true, node) := by
  rcases base with _ | ⟨_ | _, base⟩ <;> rcases layer with _ | ⟨_ | _, layer⟩ <;>
    simp [mergeEntries, mergeEntry]

/-- An object is merged with the object under it, and replaces anything else. -/
theorem mergeEntries_object (base : Option (Bool × Marked)) (mark : Bool)
    (inner : Members (Bool × Marked)) :
    ((∀ entry ∈ base, entry.2.isObject = false) ∧
      ∃ mark', mergeEntries base (some (mark, object inner)) = some (mark', object inner)) ∨
    ∃ mark' outer mark'', base = some (mark', object outer) ∧
      mergeEntries base (some (mark, object inner)) =
        some (mark'', object (mergeMembers outer inner)) := by
  rcases base with _ | ⟨mark', base⟩
  · exact Or.inl ⟨by simp, mark, rfl⟩
  · cases base with
    | scalar s =>
      exact Or.inl ⟨by simp [isObject], mark' || mark, by simp [mergeEntries, mergeEntry]⟩
    | array items =>
      exact Or.inl ⟨by simp [isObject], mark' || mark, by simp [mergeEntries, mergeEntry]⟩
    | object outer =>
      exact Or.inr ⟨mark', outer, mark' || mark, rfl,
        by simp [mergeEntries, mergeEntry, merge_object]⟩

section Concat

variable {trees : List Marked} {base layer : Members (Bool × Marked)} {p : List String}

/-- **A tree that ends above a path** leaves nothing there. -/
theorem Precedence.of_endsAbove (hends : EndsAbove p (.object layer)) :
    Precedence (trees ++ [.object layer]) p
      (((Marked.object base).merge (.object layer)).at? p) := by
  have hon : EndsOn p (.object layer) := not_not.1 fun hon => not_endsAbove_of_not_endsOn hon hends
  have hnone := at?_of_endsAbove hends
  rw [at?_merge, if_pos hends]
  constructor
  · simp [afterLast_concat_of_pos hon]
  · rintro - t ht ⟨entry, hentry, -⟩
    rw [last?_concat_of_pos hon, Option.mem_some_iff] at ht
    subst ht
    simp [hnone] at hentry
  · exact fun _ _ _ => rfl
  · simp
  · simp [afterLast_concat_of_pos hends]

/-- **A tree that ends at a path** leaves there what it ended with. -/
theorem Precedence.concat_of_endsAt (h : Precedence trees p ((Marked.object base).at? p))
    (habove : ¬EndsAbove p (.object layer)) (hends : EndsAt p (.object layer)) :
    Precedence (trees ++ [.object layer]) p
      (((Marked.object base).merge (.object layer)).at? p) := by
  have hp : p ≠ [] := by
    rintro rfl
    simp [EndsAt, at?, isObject] at hends
  have hon := (endsOn_iff hp).2 (Or.inl hends)
  obtain ⟨⟨mark, node⟩, hentry, hnode⟩ := hends
  have hfound : ∃ mark', mergeEntries ((Marked.object base).at? p) (some (mark, node)) =
      some (mark', node) := by
    rcases (Marked.object base).at? p with _ | ⟨mark', node'⟩
    · exact ⟨_, rfl⟩
    · refine ⟨_, congrArg some (Prod.ext rfl ?_)⟩
      refine merge_of_not_object fun b o _ (hl : node = .object o) => ?_
      simp [hl, isObject] at hnode
  rw [at?_merge, if_neg habove, show (Marked.object layer).at? p = some (mark, node) from hentry]
  obtain ⟨mark', hmark⟩ := hfound
  constructor
  · simp [afterLast_concat_of_pos hon]
  · intro _ t ht _
    rw [last?_concat_of_pos hon, Option.mem_some_iff] at ht
    subst ht
    rw [hmark, hentry]
    rfl
  · intro _ _ hlast
    exact absurd ⟨_, hentry, hnode⟩ (hlast _ (last?_concat_of_pos hon trees))
  · intro mark members hmembers
    rw [hmark, Option.some.injEq, Prod.mk.injEq] at hmembers
    rw [hmembers.2] at hnode
    simp [isObject] at hnode
  · rw [marked_mergeEntries_iff, h.marked, afterLast_concat_of_neg habove, ← hentry]
    simp [or_and_right, exists_or]

/-- **A tree that does not reach a path** leaves there what there is. -/
theorem Precedence.concat_of_none (h : Precedence trees p ((Marked.object base).at? p))
    (hon : ¬EndsOn p (.object layer)) (hentry : (Marked.object layer).at? p = none) :
    Precedence (trees ++ [.object layer]) p
      (((Marked.object base).merge (.object layer)).at? p) := by
  have habove := not_endsAbove_of_not_endsOn hon
  rw [at?_merge, if_neg habove, hentry, mergeEntries_none_right]
  constructor
  · simpa [afterLast_concat_of_neg hon, hentry] using h.object
  · simpa [afterLast_concat_of_neg hon, last?_concat_of_neg hon, hentry, or_imp, forall_and]
      using h.ended
  · simpa [afterLast_concat_of_neg hon, last?_concat_of_neg hon, hentry, or_imp, forall_and]
      using h.absent
  · simpa [afterLast_concat_of_neg hon, keysAt_of_none hentry] using h.order
  · simpa [afterLast_concat_of_neg habove, hentry] using h.marked

/-- **A tree that holds an object at a path** is merged with the object there, if there is
one. -/
theorem Precedence.concat_of_object (h : Precedence trees p ((Marked.object base).at? p))
    (hon : ¬EndsOn p (.object layer)) (hlayer : (Marked.object layer).Distinct) {mark : Bool}
    {inner : Members (Bool × Marked)}
    (hentry : (Marked.object layer).at? p = some (mark, .object inner)) :
    Precedence (trees ++ [.object layer]) p
      (((Marked.object base).merge (.object layer)).at? p) := by
  have habove := not_endsAbove_of_not_endsOn hon
  have hinner : Members.Distinct inner := (distinct_object_iff.1 (hlayer.follow hentry)).1
  have hholds : ¬∀ t ∈ afterLast (EndsOn p) (trees ++ [.object layer]), t.at? p = none :=
    fun hnone => by simp [afterLast_concat_of_neg hon, or_imp, forall_and, hentry] at hnone
  have hmarked : (∃ node, mergeEntries ((Marked.object base).at? p) ((Marked.object layer).at? p) =
      some (true, node)) ↔ ∃ t ∈ afterLast (EndsAbove p) (trees ++ [.object layer]),
        ∃ node, t.at? p = some (true, node) := by
    rw [marked_mergeEntries_iff, h.marked, afterLast_concat_of_neg habove]
    simp [or_and_right, exists_or]
  rw [at?_merge, if_neg habove]
  rw [hentry] at hmarked ⊢
  have hkeys : keysAt p (.object layer) = Members.keys inner := by rw [keysAt, hentry]
  rcases mergeEntries_object ((Marked.object base).at? p) mark inner with
    ⟨hbase, mark', hmerge⟩ | ⟨mark', outer, mark'', hbase, hmerge⟩
  · -- no object was there, so that none of the trees after the last one that ended held the path
    have hold : (afterLast (EndsOn p) trees).flatMap (keysAt p) = [] := by
      refine List.flatMap_eq_nil_iff.2 fun t ht => keysAt_of_none ?_
      by_contra hsome
      obtain ⟨mark, members, hfound⟩ := h.object ⟨t, ht, Option.ne_none_iff_exists'.1 hsome⟩
      simpa [isObject] using hbase _ hfound
    refine ⟨fun _ => ⟨_, _, hmerge⟩, fun hnone => absurd hnone hholds,
      fun _ hnone => absurd hnone hholds, fun mark members hmembers => ?_, hmarked⟩
    rw [hmerge, Option.some.injEq, Prod.mk.injEq, Marked.object.injEq] at hmembers
    rw [afterLast_concat_of_neg hon, List.flatMap_append, hold, ← hmembers.2]
    simp [hkeys, eraseDups_of_nodup hinner]
  · refine ⟨fun _ => ⟨_, _, hmerge⟩, fun hnone => absurd hnone hholds,
      fun _ hnone => absurd hnone hholds, fun mark members hmembers => ?_, hmarked⟩
    rw [hmerge, Option.some.injEq, Prod.mk.injEq, Marked.object.injEq] at hmembers
    rw [afterLast_concat_of_neg hon, List.flatMap_append, ← hmembers.2,
      keys_mergeMembers_of_eraseDups (h.order _ _ hbase) hinner]
    simp [hkeys]

end Concat

/-- Nothing is merged to an object without members. -/
theorem precedence_nil (p : List String) : Precedence [] p ((mergeAll []).at? p) := by
  have hnil : (mergeAll []).at? [] = some (false, .object []) := rfl
  have hcons (key : String) (rest : List String) : (mergeAll []).at? (key :: rest) = none := rfl
  constructor
  · simp [afterLast]
  · simp [last?]
  · intro hp _ _
    obtain ⟨key, rest, rfl⟩ := List.exists_cons_of_ne_nil hp
    exact hcons key rest
  · rcases p with _ | ⟨key, rest⟩
    · simp [hnil, afterLast, Members.keys]
    · simp [hcons]
  · rcases p with _ | ⟨key, rest⟩
    · simp [hnil, afterLast]
    · simp [hcons, afterLast]

/-- **Precedence in a chain of merges.** At every path of keys, the chain of object trees that
repeat no key holds what the rules say. -/
theorem precedence_mergeAll {trees : List Marked} (hobjects : ∀ t ∈ trees, t.isObject = true)
    (hdistinct : ∀ t ∈ trees, t.Distinct) (p : List String) :
    Precedence trees p ((mergeAll trees).at? p) := by
  induction trees using List.reverseRecOn with
  | nil => exact precedence_nil p
  | append_singleton trees t ih =>
    obtain ⟨htrees, ht⟩ := List.forall_mem_append.1 hobjects
    obtain ⟨hkeys, hkey⟩ := List.forall_mem_append.1 hdistinct
    obtain ⟨base, hbase⟩ := exists_mergeAll_eq htrees
    obtain ⟨layer, rfl⟩ := eq_object_of_isObject (ht t List.mem_cons_self)
    have h := ih htrees hkeys
    rw [hbase] at h
    rw [mergeAll_concat, hbase]
    by_cases habove : EndsAbove p (.object layer)
    · exact .of_endsAbove habove
    by_cases hends : EndsAt p (.object layer)
    · exact h.concat_of_endsAt habove hends
    · have hon : ¬EndsOn p (.object layer) := by
        rcases eq_or_ne p [] with rfl | hp
        · exact not_endsOn_nil _
        · rw [endsOn_iff hp]
          exact not_or.2 ⟨hends, habove⟩
      rcases hentry : (Marked.object layer).at? p with _ | ⟨mark, node⟩
      · exact h.concat_of_none hon hentry
      · cases hnode : node.isObject with
        | false => exact absurd ⟨_, hentry, hnode⟩ hends
        | true =>
          obtain ⟨inner, rfl⟩ := eq_object_of_isObject hnode
          exact h.concat_of_object hon (hkey _ List.mem_cons_self) hentry

/-- Of an object that was replaced in between, nothing is left but the mark on it: its members
are those of the third tree, and the array of the second one is there as it was. -/
theorem precedence_of_interrupted :
    ∃ first second third, (∀ t ∈ [first, second, third], t.isObject = true) ∧
      (∀ t ∈ [first, second, third], t.Distinct) ∧
      (∃ node, first.at? ["a", "x"] = some (true, node)) ∧ EndsAt ["a"] second ∧
      (∃ mark members, (mergeAll [first, second, third]).at? ["a"] = some (mark, .object members) ∧
        Members.keys members = ["z", "y"]) ∧
      (∃ node, (mergeAll [first, second, third]).at? ["a"] = some (true, node)) ∧
      (mergeAll [first, second, third]).at? ["a", "x"] = none ∧
      ((mergeAll [first, second, third]).at? ["b"]).map Prod.snd = some (.array []) := by
  let first : Marked :=
    .object [("a", true, .object [("x", true, .scalar .null), ("y", false, .scalar .null)])]
  let second : Marked := .object [("b", false, .array []), ("a", false, .scalar .null)]
  let third : Marked :=
    .object [("a", false, .object [("z", false, .scalar .null), ("y", true, .scalar .null)])]
  have hobjects : ∀ t ∈ [first, second, third], t.isObject = true := by
    simp [first, second, third, isObject]
  have hdistinct : ∀ t ∈ [first, second, third], t.Distinct := by
    simp [first, second, third, Distinct, DistinctMembers, DistinctItems, Members.Distinct,
      Members.keys]
  have hlaw := precedence_mergeAll hobjects hdistinct
  have hends : EndsAt ["a"] second := ⟨_, rfl, rfl⟩
  refine ⟨first, second, third, hobjects, hdistinct, ⟨_, rfl⟩, hends, ?_, ?_, ?_, ?_⟩
  · have hafter : afterLast (EndsOn ["a"]) [first, second, third] = [third] := rfl
    obtain ⟨mark, members, hfound⟩ := (hlaw ["a"]).object
      ⟨third, by rw [hafter]; exact List.mem_cons_self, _, rfl⟩
    exact ⟨mark, members, hfound, (hlaw ["a"]).order mark members hfound⟩
  · have hafter : afterLast (EndsAbove ["a"]) [first, second, third] = [first, second, third] := rfl
    exact (hlaw ["a"]).marked.2 ⟨first, by rw [hafter]; exact List.mem_cons_self, _, rfl⟩
  · have hafter : afterLast (EndsOn ["a", "x"]) [first, second, third] = [third] := rfl
    have hlast : last? (EndsOn ["a", "x"]) [first, second, third] = some second := rfl
    refine (hlaw ["a", "x"]).absent (by decide) ?_ ?_
    · rw [hafter]
      exact fun t ht => List.mem_singleton.1 ht ▸ rfl
    · rw [hlast]
      rintro t ⟨⟩ ⟨entry, hentry, -⟩
      cases hentry
  · have hafter : afterLast (EndsOn ["b"]) [first, second, third] = [third] := rfl
    have hlast : last? (EndsOn ["b"]) [first, second, third] = some second := rfl
    refine (hlaw ["b"]).ended ?_ second hlast ⟨_, rfl, rfl⟩
    rw [hafter]
    exact fun t ht => List.mem_singleton.1 ht ▸ rfl

end Marked

end ConfigTree
