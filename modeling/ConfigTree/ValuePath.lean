import ConfigTree.Document

/-!
# Places in a document

A `ConfigTree.ValuePath` is a list of steps from the root of a document: into the member of
an object under a key, or to the item of an array at an index. `ConfigTree.Document.find?`
follows it, and finds nothing as soon as a step does not exist.

`ConfigTree.ValuePath.text` prints a path as in `table.legs[2].height`. Printing does not
quote keys, so that two paths may print alike when their keys hold points or brackets.
-/

namespace ConfigTree

/-- One step into a document. -/
inductive Step
  /-- To the member under this key. -/
  | key (name : String)
  /-- To the item at this index. -/
  | index (i : Nat)
deriving DecidableEq

/-- A place in a document, as the steps from the root. -/
abbrev ValuePath := List Step

namespace ValuePath

/-- The root of a document. -/
def root : ValuePath := []

/-- Whether the path is the root. -/
def isRoot (p : ValuePath) : Bool := p.isEmpty

/-- The member under `name` below `p`. -/
def key (p : ValuePath) (name : String) : ValuePath := p ++ [.key name]

/-- The item at `i` below `p`. -/
def index (p : ValuePath) (i : Nat) : ValuePath := p ++ [.index i]

/-- The text of the steps that follow another step. -/
def below : List Step → String
  | [] => ""
  | .key name :: rest => "." ++ name ++ below rest
  | .index i :: rest => "[" ++ toString i ++ "]" ++ below rest

/-- **The text of a path.** A key at the start has no point before it. -/
def text : ValuePath → String
  | [] => "<root>"
  | .key name :: rest => name ++ below rest
  | .index i :: rest => below (.index i :: rest)

end ValuePath

namespace Document

/-- The part of a document one step below it. -/
def child? : Document → Step → Option Document
  | .object members, .key name => Members.get? members name
  | .array items, .index i => items[i]?
  | _, _ => none

/-- Every item of an array is a step below it. -/
theorem exists_child?_of_mem {items : List Document} {item : Document} (h : item ∈ items) :
    ∃ i, (array items).child? (.index i) = some item :=
  List.mem_iff_getElem?.1 h

/-- So is every member of an object without repeated keys. -/
theorem child?_of_mem_members {members : Members Document} (hkeys : members.Distinct)
    {member : String × Document} (h : member ∈ members) :
    (object members).child? (.key member.1) = some member.2 :=
  Members.get?_of_mem hkeys h

/-- **Lookup**: the part of a document at a path, if every step exists. -/
def find? : Document → ValuePath → Option Document
  | d, [] => some d
  | d, step :: rest => (d.child? step).bind (find? · rest)

@[simp] theorem find?_nil (d : Document) : d.find? [] = some d := rfl

theorem find?_cons (d : Document) (step : Step) (rest : ValuePath) :
    d.find? (step :: rest) = (d.child? step).bind (find? · rest) := rfl

theorem find?_append (d : Document) (p q : ValuePath) :
    d.find? (p ++ q) = (d.find? p).bind (find? · q) := by
  induction p generalizing d with
  | nil => rfl
  | cons step p ih =>
    rw [List.cons_append, find?_cons, find?_cons]
    cases d.child? step with
    | none => rfl
    | some c => exact ih c

end Document

end ConfigTree
