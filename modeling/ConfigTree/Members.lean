/-!
# Ordered members

The members of an object, listed in their order. A key keeps the place at which it
was first put: `ConfigTree.Members.put` replaces the value of a key that is there and
appends a key that is not, so of two members with one key the later value stands at the
earlier place. `ConfigTree.Members.erase` leaves the order of the others alone.

The list itself does not forbid a repeated key; `ConfigTree.Members.Distinct` says that
there is none. `put` and `erase` keep it (`ConfigTree.Members.Distinct.put`,
`ConfigTree.Members.Distinct.erase`), and every object that is read or merged has it.
Lookup is `ConfigTree.Members.get?`, and what the two operations do to it is said by
`ConfigTree.Members.get?_put` and `ConfigTree.Members.get?_erase`.
-/

namespace ConfigTree

/-- Members in order, each a key and what it holds. -/
abbrev Members (α : Type) := List (String × α)

namespace Members

variable {α : Type}

/-- The keys, in order. -/
def keys (members : Members α) : List String := members.map Prod.fst

/-- **Distinct keys**: no key occurs twice. -/
def Distinct (members : Members α) : Prop := members.keys.Nodup

/-- What the first member with this key holds. -/
def get? : Members α → String → Option α
  | [], _ => none
  | (name, a) :: rest, key => if name = key then some a else get? rest key

/-- Whether some member has this key. -/
def has (members : Members α) (key : String) : Bool := (members.get? key).isSome

/-- Puts `a` under `key`: in place of the value that is there, or else last. -/
def put : Members α → String → α → Members α
  | [], key, a => [(key, a)]
  | (name, b) :: rest, key, a =>
    if name = key then (name, a) :: rest else (name, b) :: put rest key a

/-- The members under other keys. -/
def erase (members : Members α) (key : String) : Members α :=
  members.filter fun member => member.1 ≠ key

/-! ### Lookup -/

@[simp] theorem get?_nil (key : String) : get? ([] : Members α) key = none := rfl

theorem get?_cons (name key : String) (a : α) (rest : Members α) :
    get? ((name, a) :: rest) key = if name = key then some a else get? rest key := rfl

/-- A lookup that finds something finds a member. -/
theorem mem_of_get? {members : Members α} {key : String} {a : α}
    (h : members.get? key = some a) : (key, a) ∈ members := by
  induction members with
  | nil => simp at h
  | cons member rest ih =>
    obtain ⟨name, b⟩ := member
    rw [get?_cons] at h
    split at h
    · simp_all
    · exact List.mem_cons_of_mem _ (ih h)

/-- Where keys are distinct, every member is found. -/
theorem get?_of_mem {members : Members α} {key : String} {a : α} (h : members.Distinct)
    (hmem : (key, a) ∈ members) : members.get? key = some a := by
  induction members with
  | nil => simp at hmem
  | cons member rest ih =>
    obtain ⟨name, b⟩ := member
    obtain ⟨hname, hrest⟩ := List.nodup_cons.1 h
    rw [get?_cons]
    rcases List.mem_cons.1 hmem with heq | hmem
    · obtain ⟨rfl, rfl⟩ := Prod.mk.inj heq
      rw [if_pos rfl]
    · have hne : name ≠ key := by
        rintro rfl
        exact hname (List.mem_map.2 ⟨_, hmem, rfl⟩)
      rw [if_neg hne]
      exact ih hrest hmem

theorem get?_append (members others : Members α) (key : String) :
    get? (members ++ others) key = (members.get? key).or (others.get? key) := by
  induction members with
  | nil => rfl
  | cons member rest ih =>
    obtain ⟨name, a⟩ := member
    rw [List.cons_append, get?_cons, get?_cons, ih]
    split <;> rfl

theorem get?_eq_none_iff {members : Members α} {key : String} :
    members.get? key = none ↔ key ∉ members.keys := by
  induction members with
  | nil => simp [keys]
  | cons member rest ih =>
    obtain ⟨name, b⟩ := member
    rw [get?_cons]
    split
    · simp_all [keys]
    · rename_i h
      rw [ih]
      simp [keys, Ne.symm h]

theorem has_iff {members : Members α} {key : String} :
    members.has key = true ↔ key ∈ members.keys := by
  rw [has, Option.isSome_iff_ne_none, ne_eq, get?_eq_none_iff, Decidable.not_not]

/-! ### Putting -/

/-- What a lookup finds after a `put`. -/
theorem get?_put (members : Members α) (key other : String) (a : α) :
    (members.put key a).get? other = if key = other then some a else members.get? other := by
  induction members with
  | nil => rfl
  | cons member rest ih =>
    obtain ⟨name, b⟩ := member
    rw [put]
    split
    · rename_i hk
      subst hk
      rw [get?_cons, get?_cons]
      split <;> rfl
    · rename_i hk
      rw [get?_cons, get?_cons, ih]
      by_cases ho : name = other
      · subst ho
        rw [if_pos rfl, if_neg (Ne.symm hk), if_pos rfl]
      · rw [if_neg ho, if_neg ho]

/-- The keys after a `put`: the same, or one more at the end. -/
theorem keys_put (members : Members α) (key : String) (a : α) :
    (members.put key a).keys =
      if key ∈ members.keys then members.keys else members.keys ++ [key] := by
  induction members with
  | nil => simp [put, keys]
  | cons member rest ih =>
    obtain ⟨name, b⟩ := member
    by_cases hk : name = key
    · simp [put, keys, hk]
    · rw [put, if_neg hk]
      simp only [keys, List.map_cons, List.mem_cons] at ih ⊢
      rw [ih]
      by_cases hm : key ∈ List.map Prod.fst rest <;> simp [hm, Ne.symm hk]

theorem Distinct.put {members : Members α} (h : members.Distinct) (key : String) (a : α) :
    (members.put key a).Distinct := by
  rw [Distinct, keys_put]
  split
  · exact h
  · rename_i hk
    refine List.nodup_append.2 ⟨h, by simp, ?_⟩
    intro x hx y hy
    simp only [List.mem_singleton] at hy
    rintro rfl
    exact hk (hy ▸ hx)

/-- Putting a key that is not there appends a member. -/
theorem put_eq_append {members : Members α} {key : String} (h : key ∉ members.keys) (a : α) :
    members.put key a = members ++ [(key, a)] := by
  induction members with
  | nil => rfl
  | cons member rest ih =>
    obtain ⟨name, b⟩ := member
    simp only [keys, List.map_cons, List.mem_cons, not_or] at h
    rw [put, if_neg (Ne.symm h.1), ih h.2, List.cons_append]

/-! ### Erasing -/

@[simp] theorem keys_erase (members : Members α) (key : String) :
    (members.erase key).keys = members.keys.filter (· ≠ key) := by
  simp [keys, erase, List.filter_map, Function.comp_def]

theorem Distinct.erase {members : Members α} (h : members.Distinct) (key : String) :
    (members.erase key).Distinct := by
  rw [Distinct, keys_erase]
  exact List.Pairwise.filter _ h

/-- What a lookup finds after an `erase`. -/
theorem get?_erase (members : Members α) (key other : String) :
    (members.erase key).get? other = if key = other then none else members.get? other := by
  induction members with
  | nil => simp [erase]
  | cons member rest ih =>
    obtain ⟨name, b⟩ := member
    rw [get?_cons, erase, List.filter_cons]
    by_cases hk : name = key
    · subst hk
      rw [if_neg (by simp), ← erase, ih]
      split <;> rfl
    · rw [if_pos (by simpa using hk), get?_cons, ← erase, ih]
      by_cases ho : name = other
      · subst ho
        rw [if_pos rfl, if_neg (Ne.symm hk), if_pos rfl]
      · rw [if_neg ho, if_neg ho]

/-- Erasing a key that is not there changes nothing. -/
theorem erase_eq_self {members : Members α} {key : String} (h : members.get? key = none) :
    members.erase key = members := by
  rw [get?_eq_none_iff] at h
  refine List.filter_eq_self.2 fun member hmember => decide_eq_true fun heq => h ?_
  exact List.mem_map.2 ⟨member, hmember, heq⟩

end Members

end ConfigTree
