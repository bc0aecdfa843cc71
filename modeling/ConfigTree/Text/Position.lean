/-!
# Lines and columns

The position of a character in a text, counted from `1` in both directions. A line ends at
a line feed, a carriage return, a line separator or a paragraph separator; a carriage
return and the line feed right after it are one line end. Columns count characters.
-/

namespace ConfigTree

/-- A character that ends a line. -/
def isLineEnd (c : Char) : Bool :=
  c = '\n' || c = '\r' || c = '\u2028' || c = '\u2029'

/-- A line and a column in it, both counted from `1`. -/
structure Position where
  /-- The line. -/
  line : Nat
  /-- The column, in characters. -/
  column : Nat
deriving DecidableEq

namespace Position

/-- The first character of a text. -/
def start : Position := ⟨1, 1⟩

/-- The position that is reached from `p` by reading these characters. -/
def after (p : Position) : List Char → Position
  | [] => p
  | '\r' :: '\n' :: rest => after ⟨p.line + 1, 1⟩ rest
  | c :: rest =>
    if isLineEnd c then after ⟨p.line + 1, 1⟩ rest else after ⟨p.line, p.column + 1⟩ rest

/-- The position in `text` at which `left` characters are still to be read. -/
def before (text : List Char) (left : Nat) : Position :=
  start.after (text.take (text.length - left))

/-- The wording of a position. -/
def text (p : Position) : String :=
  "line " ++ toString p.line ++ " column " ++ toString p.column

end Position

end ConfigTree
