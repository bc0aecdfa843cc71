import ConfigTree.Members
import ConfigTree.Number

/-!
# Documents

A document is a scalar, an array of documents or an object, whose members stand in their
order. As data, a document may repeat a key in an object; `ConfigTree.Document.Distinct`
says that it nowhere does, and every document that is read from a text has this property.
-/

namespace ConfigTree

/-- A value without parts. -/
inductive Scalar
  | null
  | bool (b : Bool)
  | number (n : Number)
  | string (s : String)
deriving DecidableEq

/-- A document: a scalar, an array, or an object with its members in order. -/
inductive Document
  | scalar (s : Scalar)
  | array (items : List Document)
  | object (members : List (String × Document))

namespace Document

/-- The document that is nothing but `null`. -/
def null : Document := .scalar .null

instance : Inhabited Document := ⟨null⟩

/-- The members of an object; other documents have none. -/
def members : Document → Members Document
  | .object members => members
  | _ => []

/-- The items of an array; other documents have none. -/
def items : Document → List Document
  | .array items => items
  | _ => []

/-! ### Equality -/

mutual

/-- Decides whether two documents are equal. -/
def decEq : (a b : Document) → Decidable (a = b)
  | .scalar s, .scalar t => decidable_of_iff (s = t) (by simp)
  | .array xs, .array ys =>
    have := decEqItems xs ys
    decidable_of_iff (xs = ys) (by simp)
  | .object ms, .object ns =>
    have := decEqMembers ms ns
    decidable_of_iff (ms = ns) (by simp)
  | .scalar _, .array _ | .scalar _, .object _ | .array _, .scalar _ | .array _, .object _
  | .object _, .scalar _ | .object _, .array _ => isFalse (by simp)

/-- Decides whether two lists of items are equal. -/
def decEqItems : (xs ys : List Document) → Decidable (xs = ys)
  | [], [] => isTrue rfl
  | [], _ :: _ => isFalse (by simp)
  | _ :: _, [] => isFalse (by simp)
  | x :: xs, y :: ys =>
    have := decEq x y
    have := decEqItems xs ys
    decidable_of_iff (x = y ∧ xs = ys) (by simp)

/-- Decides whether two lists of members are equal. -/
def decEqMembers : (ms ns : List (String × Document)) → Decidable (ms = ns)
  | [], [] => isTrue rfl
  | [], _ :: _ => isFalse (by simp)
  | _ :: _, [] => isFalse (by simp)
  | (j, x) :: ms, (k, y) :: ns =>
    have := decEq x y
    have := decEqMembers ms ns
    decidable_of_iff (j = k ∧ x = y ∧ ms = ns) (by simp [and_assoc])

end

instance : DecidableEq Document := decEq

/-- **Induction on documents**, from the items of an array and the members of an object. -/
theorem induction {motive : Document → Prop} (scalar : ∀ s, motive (.scalar s))
    (array : ∀ items, (∀ item ∈ items, motive item) → motive (.array items))
    (object : ∀ members, (∀ member ∈ members, motive member.2) → motive (.object members)) :
    ∀ d, motive d
  | .scalar s => scalar s
  | .array items => array items fun item hitem =>
    have : sizeOf item < sizeOf items := List.sizeOf_lt_of_mem hitem
    induction scalar array object item
  | .object members => object members fun member hmember =>
    have : sizeOf member < sizeOf members := List.sizeOf_lt_of_mem hmember
    induction scalar array object member.2
termination_by d => sizeOf d
decreasing_by
  · rw [Document.array.sizeOf_spec]
    omega
  · obtain ⟨key, value⟩ := member
    rw [Document.object.sizeOf_spec]
    simp only [Prod.mk.sizeOf_spec] at this ⊢
    omega

/-! ### Size -/

mutual

/-- The number of documents in a document, itself included. -/
def size : Document → Nat
  | .scalar _ => 1
  | .array items => 1 + sizeItems items
  | .object members => 1 + sizeMembers members

/-- The number of documents in the items of an array. -/
def sizeItems : List Document → Nat
  | [] => 0
  | item :: rest => item.size + sizeItems rest

/-- The number of documents in the members of an object. -/
def sizeMembers : List (String × Document) → Nat
  | [] => 0
  | (_, value) :: rest => value.size + sizeMembers rest

end

theorem size_pos (d : Document) : 0 < d.size := by
  cases d <;> rw [size] <;> omega

theorem size_le_sizeMembers {members : Members Document} {key : String} {d : Document}
    (h : members.get? key = some d) : d.size ≤ sizeMembers members := by
  induction members with
  | nil => simp at h
  | cons member rest ih =>
    obtain ⟨name, value⟩ := member
    rw [Members.get?_cons] at h
    rw [sizeMembers]
    split at h
    · simp_all
    · have := ih h
      omega

theorem sizeMembers_erase_le (members : Members Document) (key : String) :
    sizeMembers (members.erase key) ≤ sizeMembers members := by
  induction members with
  | nil => simp [Members.erase]
  | cons member rest ih =>
    obtain ⟨name, value⟩ := member
    simp only [Members.erase, List.filter_cons] at ih ⊢
    split
    · simp only [sizeMembers]
      omega
    · simp only [sizeMembers]
      omega

/-! ### Distinct keys -/

mutual

/-- **Distinct keys throughout**: no object in the document repeats a key. -/
def Distinct : Document → Prop
  | .scalar _ => True
  | .array items => DistinctItems items
  | .object members => Members.Distinct members ∧ DistinctMembers members

/-- No object in the items of an array repeats a key. -/
def DistinctItems : List Document → Prop
  | [] => True
  | item :: rest => item.Distinct ∧ DistinctItems rest

/-- No object in the members of an object repeats a key. -/
def DistinctMembers : List (String × Document) → Prop
  | [] => True
  | (_, value) :: rest => value.Distinct ∧ DistinctMembers rest

end

theorem distinctItems_iff {items : List Document} :
    DistinctItems items ↔ ∀ item ∈ items, item.Distinct := by
  induction items with
  | nil => simp [DistinctItems]
  | cons item rest ih => rw [DistinctItems, ih, List.forall_mem_cons]

theorem distinctMembers_iff {members : Members Document} :
    DistinctMembers members ↔ ∀ member ∈ members, member.2.Distinct := by
  induction members with
  | nil => simp [DistinctMembers]
  | cons member rest ih => rw [DistinctMembers, ih, List.forall_mem_cons]

end Document

end ConfigTree
