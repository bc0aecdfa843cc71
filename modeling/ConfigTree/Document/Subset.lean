import ConfigTree.ValuePath

/-!
# Subsets of a document

`ConfigTree.Document.subset` copies the parts of a document at some paths into a fresh
object, each to the place that it has in the document. Objects and arrays on the way are
made as they are needed. An array is filled with `null` up to the item that is copied, so
that indices keep their meaning. A path at which the document holds nothing is left out.
-/

namespace ConfigTree

namespace Document

/-- At least `n` items, filled up with `null`. -/
def padded (items : List Document) (n : Nat) : List Document :=
  items ++ List.replicate (n - items.length) null

/-- **Insertion**: puts `value` at a path of `slot`. On the way, whatever is not an object
where a key leads on becomes an empty object, and whatever is not an array where an index
does becomes an empty array. -/
def insertAt (value : Document) : ValuePath → Document → Document
  | [], _ => value
  | .key name :: rest, slot =>
    let members : Members Document := slot.members
    .object (members.put name (insertAt value rest ((members.get? name).getD null)))
  | .index i :: rest, slot =>
    let items := padded slot.items (i + 1)
    .array (items.set i (insertAt value rest (items[i]?.getD null)))

/-- **The parts of a document at these paths**, each at its own place. -/
def subset (d : Document) (paths : List ValuePath) : Document :=
  paths.foldl (fun slot p => (d.find? p).elim slot (insertAt · p slot)) (.object [])

end Document

end ConfigTree
