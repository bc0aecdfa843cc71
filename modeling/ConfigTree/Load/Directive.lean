import ConfigTree.Document

/-!
# Directives

Three things in an object direct how it is resolved, and none of them is left in the
result. The member `#include` names files by a string or a list of strings; the empty
string and whatever is no string name no file. The member `#public` is a block whose
members are public. And a key that ends in `#public`, in letters of either case and with
at least one character before it, marks its member as public and names it by what stands
before (`ConfigTree.Directive.memberName`). The suffix alone, in another case, is an
ordinary key.
-/

namespace ConfigTree

namespace Directive

/-- The key of the member that names files to include. -/
def includeKey : String := "#include"

/-- The key of a public block, and the suffix that marks a single member. -/
def publicKey : String := "#public"

/-- The members of an object that are not directives. -/
def ordinary (members : Members Document) : Members Document :=
  (members.erase includeKey).erase publicKey

theorem sizeMembers_ordinary_le (members : Members Document) :
    Document.sizeMembers (ordinary members) ≤ Document.sizeMembers members :=
  Nat.le_trans (Document.sizeMembers_erase_le _ _) (Document.sizeMembers_erase_le _ _)

/-- The name before a mark, if the key carries one. -/
def markedName? (key : String) : Option String :=
  let cs := key.toList
  let n := cs.length - publicKey.length
  if 0 < n ∧ (cs.drop n).map Char.toLower = publicKey.toList then some (String.ofList (cs.take n))
  else none

/-- **The name of a member** with this key, and whether the key marks it. -/
def memberName (key : String) : String × Bool :=
  (markedName? key).elim (key, false) (·, true)

/-- The text of a string. -/
def string? : Document → Option String
  | .scalar (.string s) => some s
  | _ => none

/-- **The files that an include member names**, in order. -/
def includedTexts (value : Document) : List String :=
  let texts := match value with
    | .array items => items.filterMap string?
    | other => (string? other).toList
  texts.filter (· ≠ "")

/-- The items of an include list that are no strings. -/
def ignoredItems : Document → List Document
  | .array items => items.filter fun item => (string? item).isNone
  | _ => []

/-- Whether the value of an include member is neither a string nor a list. -/
def isUnsupported : Document → Bool
  | .array _ => false
  | other => (string? other).isNone

end Directive

end ConfigTree
