import ConfigTree.ValuePath

/-!
# Trees with marked members

A `ConfigTree.Marked` tree is a document in which every member of every object carries a
mark: whether it was made public. Marks sit on members only, not on the items of an array
and not on the root.

A marked tree has two readings. `ConfigTree.Marked.plain` forgets the marks. And
`ConfigTree.Marked.publicPaths` lists the places of the **outermost** marked members, in
the order of the document: below a marked member nothing more is listed, since whatever is
copied with the member contains it. `ConfigTree.Marked.ofDocument` marks nothing.
-/

namespace ConfigTree

/-- A document whose members are marked as public or not. -/
inductive Marked
  | scalar (s : Scalar)
  | array (items : List Marked)
  | object (members : List (String × Bool × Marked))

namespace Marked

/-! ### Forgetting the marks -/

mutual

/-- The document without the marks. -/
def plain : Marked → Document
  | .scalar s => .scalar s
  | .array items => .array (plainItems items)
  | .object members => .object (plainMembers members)

/-- The items of an array without the marks. -/
def plainItems : List Marked → List Document
  | [] => []
  | item :: rest => item.plain :: plainItems rest

/-- The members of an object without the marks. -/
def plainMembers : List (String × Bool × Marked) → List (String × Document)
  | [] => []
  | (key, _, node) :: rest => (key, node.plain) :: plainMembers rest

end

/-! ### Outermost marked members -/

mutual

/-- **The outermost marked members** of a tree, in the order of the document. -/
def publicPaths : Marked → List ValuePath
  | .scalar _ => []
  | .array items => itemPaths 0 items
  | .object members => memberPaths members

/-- The outermost marked members of items, the first of which has index `i`. -/
def itemPaths (i : Nat) : List Marked → List ValuePath
  | [] => []
  | item :: rest => item.publicPaths.map (.index i :: ·) ++ itemPaths (i + 1) rest

/-- The outermost marked members of an object. -/
def memberPaths : List (String × Bool × Marked) → List ValuePath
  | [] => []
  | (key, marked, node) :: rest =>
    (if marked then [[.key key]] else node.publicPaths.map (.key key :: ·)) ++ memberPaths rest

end

/-! ### Trees without marks -/

mutual

/-- The tree of a document, with nothing marked. -/
def ofDocument : Document → Marked
  | .scalar s => .scalar s
  | .array items => .array (ofItems items)
  | .object members => .object (ofMembers members)

/-- Items with nothing marked. -/
def ofItems : List Document → List Marked
  | [] => []
  | item :: rest => ofDocument item :: ofItems rest

/-- Members that are not marked. -/
def ofMembers : List (String × Document) → List (String × Bool × Marked)
  | [] => []
  | (key, value) :: rest => (key, false, ofDocument value) :: ofMembers rest

end

/-! ### Distinct keys -/

mutual

/-- No object in the tree repeats a key. -/
def Distinct : Marked → Prop
  | .scalar _ => True
  | .array items => DistinctItems items
  | .object members => Members.Distinct members ∧ DistinctMembers members

/-- No object in the items of an array repeats a key. -/
def DistinctItems : List Marked → Prop
  | [] => True
  | item :: rest => item.Distinct ∧ DistinctItems rest

/-- No object in the members of an object repeats a key. -/
def DistinctMembers : List (String × Bool × Marked) → Prop
  | [] => True
  | (_, _, node) :: rest => node.Distinct ∧ DistinctMembers rest

end

@[simp] theorem plainMembers_nil : plainMembers [] = [] := by rw [plainMembers]

/-- Forgetting the marks keeps the keys. -/
theorem keys_plainMembers (members : Members (Bool × Marked)) :
    Members.keys (plainMembers members) = members.keys := by
  induction members with
  | nil => simp [Members.keys]
  | cons member rest ih =>
    obtain ⟨key, marked, node⟩ := member
    simp only [Members.keys] at ih
    simp [plainMembers, Members.keys, ih]

end Marked

end ConfigTree
