import ConfigTree.Load.Directive
import ConfigTree.Load.Progress
import ConfigTree.Marked.Merge

/-!
# Expanding directives

The tree that a document stands for once its directives are followed. An object becomes
the merge of three trees, each over the ones before it: the files it includes, in their
order; its public block; and its own members. A file is expanded where it is included,
with the paths in it relative to its own directory. Marks come from three places: from a
key, from a public block around the member, and from a public block around the inclusion
of its file.

The functions here recurse into documents and, at an inclusion, into other files. Into a
document the recursion ends because its parts are smaller. Into files it ends because the
files on the way to the current one, `ConfigTree.Scope.chain`, are distinct and readable: a
file that is on the chain already is not entered but is a cycle, and any other one leaves
fewer files unvisited (`ConfigTree.Source.unvisited_append_lt`).
-/

namespace ConfigTree

/-- Where an object stands that is being expanded. -/
structure Scope where
  /-- The file it is in. -/
  file : FilePath
  /-- The files that led to this one, the outermost first. -/
  above : List FilePath
  /-- Whether everything here is public. -/
  isPublic : Bool
  /-- The place in the file, by the names of members. -/
  place : ValuePath

namespace Scope

/-- The root of the file that a load begins with. -/
def top (file : FilePath) : Scope := ⟨file, [], false, .root⟩

/-- The files being expanded, the outermost first. -/
def chain (scope : Scope) : List FilePath := scope.above ++ [scope.file]

/-- The public block of the object. -/
def inBlock (scope : Scope) : Scope := { scope with isPublic := true }

/-- The member of this name. -/
def member (scope : Scope) (name : String) : Scope :=
  { scope with place := scope.place.key name }

/-- The item at this index. -/
def item (scope : Scope) (i : Nat) : Scope := { scope with place := scope.place.index i }

/-- The root of a file included from here. -/
def enter (scope : Scope) (path : FilePath) : Scope :=
  { scope with file := path, above := scope.chain, place := .root }

@[simp] theorem chain_inBlock (scope : Scope) : scope.inBlock.chain = scope.chain := rfl

@[simp] theorem chain_member (scope : Scope) (name : String) :
    (scope.member name).chain = scope.chain := rfl

@[simp] theorem chain_item (scope : Scope) (i : Nat) : (scope.item i).chain = scope.chain := rfl

@[simp] theorem chain_enter (scope : Scope) (path : FilePath) :
    (scope.enter path).chain = scope.chain ++ [path] := rfl

/-- The file that an include text names here. -/
def target (scope : Scope) (text : String) : FilePath := scope.file.parent.resolve text

end Scope

namespace Load

variable {source : Source}

/-- Reports what an include member names, and what in it names nothing. -/
def reportIncludes (scope : Scope) (value : Document) : Load source Unit := do
  for item in Directive.ignoredItems value do
    emit (.ignoredItem scope.file scope.place item)
  if Directive.isUnsupported value then
    emit (.ignoredInclude scope.file scope.place value)
  emit (.includesFound scope.file (Directive.includedTexts value).length)

mutual

/-- **Expands an object**: the merge of what it includes, its public block and its own
members. -/
def expandObject (scope : Scope) (members : Members Document) :
    Load source (Members (Bool × Marked)) := do
  let included ← match members.get? Directive.includeKey with
    | none => pure []
    | some value => do
      reportIncludes scope value
      expandIncludes scope (Directive.includedTexts value) []
  let block ← match _h : members.get? Directive.publicKey with
    | none => pure []
    | some (.object block) => expandObject scope.inBlock block
    | some _ => throw (.invalidPublicBlock scope.file (scope.place.key Directive.publicKey))
  let own ← expandMembers scope [] (Directive.ordinary members)
  return Marked.mergeMembers (Marked.mergeMembers included block) own
termination_by (source.unvisited scope.chain, 3 * Document.sizeMembers members + 2, 0)
decreasing_by
  · have := Directive.sizeMembers_ordinary_le members
    exact .right _ (.left _ _ (by omega))
  · have := Document.size_le_sizeMembers _h
    simp only [Document.size] at this
    exact .right _ (.left _ _ (by omega))
  · exact .right _ (.left _ _ (by omega))

/-- Expands the members of an object, after members with the names `taken`. -/
def expandMembers (scope : Scope) (taken : List String) :
    List (String × Document) → Load source (Members (Bool × Marked))
  | [] => pure []
  | (key, value) :: rest => do
    let (name, marked) := Directive.memberName key
    if name ∈ taken then
      throw (.keyCollision scope.file (scope.place.key name) name)
    let node ← expand (scope.member name) value
    let others ← expandMembers scope (name :: taken) rest
    return (name, marked || scope.isPublic, node) :: others
termination_by members => (source.unvisited scope.chain, 3 * Document.sizeMembers members + 1, 0)
decreasing_by
  · exact .right _ (.left _ _ (by simp only [Document.sizeMembers]; omega))
  · have := value.size_pos
    exact .right _ (.left _ _ (by simp only [Document.sizeMembers]; omega))

/-- Expands the items of an array, the first of which has index `i`. -/
def expandItems (scope : Scope) (i : Nat) : List Document → Load source (List Marked)
  | [] => pure []
  | item :: rest => do
    let node ← expand (scope.item i) item
    let others ← expandItems scope (i + 1) rest
    return node :: others
termination_by items => (source.unvisited scope.chain, 3 * Document.sizeItems items + 1, 0)
decreasing_by
  · exact .right _ (.left _ _ (by simp only [Document.sizeItems]; omega))
  · have := item.size_pos
    exact .right _ (.left _ _ (by simp only [Document.sizeItems]; omega))

/-- **Expands a document.** -/
def expand (scope : Scope) : Document → Load source Marked
  | .scalar s => pure (.scalar s)
  | .array items => return .array (← expandItems scope 0 items)
  | .object members => return .object (← expandObject scope members)
termination_by d => (source.unvisited scope.chain, 3 * d.size, 0)
decreasing_by all_goals exact .right _ (.left _ _ (by simp only [Document.size]; omega))

/-- Expands the files that these texts name, each merged over `merged` in turn. -/
def expandIncludes (scope : Scope) :
    List String → Members (Bool × Marked) → Load source (Members (Bool × Marked))
  | [], merged => pure merged
  | text :: rest, merged => do
    let path := scope.target text
    if _h : path ∈ scope.chain then throw (.cycle path scope.chain)
    else
      emit (.including scope.file path)
      let file ← fetchMembers path
      let tree ← expandObject (scope.enter path) file.value
      expandIncludes scope rest (Marked.mergeMembers merged tree)
termination_by texts => (source.unvisited scope.chain, 0, texts.length)
decreasing_by
  · exact .left _ _ (Source.unvisited_append_lt file.readable _h)
  · exact .right _ (.right _ (by simp))

end

end Load

end ConfigTree
