import ConfigTree.Document
import ConfigTree.Text.Quoted

/-!
# Writing documents

A document is written either without any blank, `ConfigTree.Document.compact`, or with each
item and member on a line of its own, indented by two spaces for each container around it,
`ConfigTree.Document.pretty`. Both are `ConfigTree.Document.write`, which leaves the blanks
to a `ConfigTree.Document.Layout`: they are all that the two differ in. An empty container
is its two brackets in either layout.
-/

namespace ConfigTree

namespace Scalar

/-- The text of a scalar. -/
def text : Scalar → List Char
  | .null => "null".toList
  | .bool true => "true".toList
  | .bool false => "false".toList
  | .number n => n.text
  | .string s => Quoted.write s.toList

end Scalar

namespace Document

/-- Where blanks are written. -/
inductive Layout
  /-- No blanks. -/
  | compact
  /-- A line for each item and member, indented by this many spaces a level. -/
  | lines (indent : Nat)
deriving DecidableEq

/-- What is written before an item or a closing bracket at this depth. -/
def Layout.lineBreak : Layout → Nat → List Char
  | .compact, _ => []
  | .lines indent, depth => '\n' :: List.replicate (indent * depth) ' '

/-- What is written between a key and its value. -/
def Layout.colon : Layout → List Char
  | .compact => [':']
  | .lines _ => [':', ' ']

mutual

/-- **The text of a document** within `depth` containers. -/
def write (layout : Layout) (depth : Nat) : Document → List Char
  | .scalar s => s.text
  | .array [] => ['[', ']']
  | .array (item :: rest) =>
    '[' :: (writeItems layout (depth + 1) (item :: rest) ++ layout.lineBreak depth ++ [']'])
  | .object [] => ['\x7b', '\x7d']
  | .object (member :: rest) =>
    '\x7b' ::
      (writeMembers layout (depth + 1) (member :: rest) ++ layout.lineBreak depth ++ ['\x7d'])

/-- The text of items, with commas between them. -/
def writeItems (layout : Layout) (depth : Nat) : List Document → List Char
  | [] => []
  | item :: rest =>
    layout.lineBreak depth ++ item.write layout depth ++
      (if rest.isEmpty then [] else ',' :: writeItems layout depth rest)

/-- The text of members, with commas between them. -/
def writeMembers (layout : Layout) (depth : Nat) : List (String × Document) → List Char
  | [] => []
  | (key, value) :: rest =>
    layout.lineBreak depth ++ Quoted.write key.toList ++ layout.colon ++
      value.write layout depth ++
      (if rest.isEmpty then [] else ',' :: writeMembers layout depth rest)

end

/-- The text of a document without blanks. -/
def compact (d : Document) : String := String.ofList (d.write .compact 0)

/-- The text of a document on lines indented by two spaces. -/
def pretty (d : Document) : String := String.ofList (d.write (.lines 2) 0)

end Document

end ConfigTree
