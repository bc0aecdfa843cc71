import ConfigTree.Marked

/-!
# Merging

Merging puts one tree, the overlay, over another. Where both hold an object, their members
are merged: a key of both keeps its place in the base, its two values are merged, and it is
marked if either of its members is; a key of the overlay alone is appended. Everywhere else
the overlay replaces the base, so that arrays are never merged item by item.

`ConfigTree.Marked.merge` is the rule for trees and `ConfigTree.Marked.mergeMembers` the
one for the members of two objects. On documents the same rule is written twice:
`ConfigTree.Document.merge` is the recursion itself, and `ConfigTree.Document.overlay`
goes through trees in which nothing is marked.
-/

namespace ConfigTree

namespace Marked

mutual

/-- **Merging**: the overlay put over the base. -/
def merge : Marked → Marked → Marked
  | .object base, .object layer =>
    .object (mergeShared base layer ++ layer.filter fun member => !Members.has base member.1)
  | _, layer => layer

/-- The members of the base, each merged with the member of the overlay under its key. -/
def mergeShared :
    List (String × Bool × Marked) → List (String × Bool × Marked) → List (String × Bool × Marked)
  | [], _ => []
  | (key, marked, node) :: rest, layer =>
    (match Members.get? layer key with
      | some (marked', node') => (key, marked || marked', node.merge node')
      | none => (key, marked, node)) :: mergeShared rest layer

end

/-- The members of two objects merged. -/
def mergeMembers (base layer : Members (Bool × Marked)) : Members (Bool × Marked) :=
  mergeShared base layer ++ layer.filter fun member => !Members.has base member.1

theorem merge_object (base layer : Members (Bool × Marked)) :
    merge (.object base) (.object layer) = .object (mergeMembers base layer) := by
  rw [merge, mergeMembers]

theorem merge_of_not_object {base layer : Marked}
    (h : ∀ b o, base = .object b → layer ≠ .object o) : base.merge layer = layer := by
  cases base <;> cases layer <;> simp_all [merge]

end Marked

namespace Document

mutual

/-- The overlay put over the base, as a recursion on documents. -/
def merge : Document → Document → Document
  | .object base, .object layer =>
    .object (mergeShared base layer ++ layer.filter fun member => !Members.has base member.1)
  | _, layer => layer

/-- The members of the base, each merged with the member of the overlay under its key. -/
def mergeShared :
    List (String × Document) → List (String × Document) → List (String × Document)
  | [], _ => []
  | (key, value) :: rest, layer =>
    (match Members.get? layer key with
      | some value' => (key, value.merge value')
      | none => (key, value)) :: mergeShared rest layer

end

/-- **The overlay put over the base**, by merging trees in which nothing is marked. -/
def overlay (base layer : Document) : Document :=
  ((Marked.ofDocument base).merge (Marked.ofDocument layer)).plain

end Document

end ConfigTree
