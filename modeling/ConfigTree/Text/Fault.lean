import ConfigTree.Text.Position

/-!
# Faults in a text

What can be wrong in the text of a document, and where. A `ConfigTree.Fault` is the kind of
fault, worded by `ConfigTree.Fault.message`; a `ConfigTree.SyntaxError` adds its position,
if it has one.

While a text is read, a place is the number of characters left from it on, which needs no
counting of lines; a `ConfigTree.Failure` is a fault with such a place. A fault at the end
of the text has no place of its own. It gets that of the innermost bracket that is still
open, by `ConfigTree.Failure.within`, and none outside of all brackets.
-/

namespace ConfigTree

/-- What a text was to hold at the place of a fault. -/
inductive Construct
  | null
  | bool
  | number
  | string
  | array
  | object
  | identifier
  | comment
  | escapeSequence
  | value
  | comma
  | colon
deriving DecidableEq

namespace Construct

/-- The wording of a construct. -/
def text : Construct → String
  | .null => "null"
  | .bool => "bool"
  | .number => "number"
  | .string => "string"
  | .array => "array"
  | .object => "object"
  | .identifier => "identifier"
  | .comment => "comment"
  | .escapeSequence => "escape sequence"
  | .value => "value"
  | .comma => "comma"
  | .colon => "colon"

end Construct

/-- What is wrong in a text. -/
inductive Fault
  /-- The text ends within this construct. -/
  | endsIn (what : Construct)
  /-- Another character than this construct needs. -/
  | expected (what : Construct)
  /-- Something after the document. -/
  | trailingCharacters
  /-- A zero before another digit. -/
  | leadingZero
  /-- A malformed escape sequence. -/
  | invalidEscape
  /-- A surrogate code unit, this one, without its other half. -/
  | unpairedSurrogate (unit : Nat)
  /-- A raw line end within a string. -/
  | lineEndInString
  /-- A hexadecimal number of more than 128 bits. -/
  | numberOverflow
  /-- A negative hexadecimal number below `-2 ^ 127`. -/
  | numberTooLarge
  /-- A malformed number with a point or an exponent. -/
  | invalidFloat
deriving DecidableEq

namespace Fault

/-- The wording of a fault. -/
def message : Fault → String
  | .endsIn what => "EOF parsing " ++ what.text
  | .expected what => "expected " ++ what.text
  | .trailingCharacters => "trailing characters"
  | .leadingZero => "leading zero"
  | .invalidEscape => "invalid escape sequence"
  | .unpairedSurrogate unit => "unpaired surrogate found: " ++ String.ofList (Nat.toDigits 16 unit)
  | .lineEndInString => "line terminator in string"
  | .numberOverflow => "overflow parsing number"
  | .numberTooLarge => "number too large to fit in target type"
  | .invalidFloat => "invalid float literal"

end Fault

/-- A fault in a text, with its position unless it has none. -/
structure SyntaxError where
  /-- What is wrong. -/
  fault : Fault
  /-- Where, if anywhere. -/
  position : Option Position
deriving DecidableEq

namespace SyntaxError

/-- The wording of an error: the fault, and then its position. -/
def message (e : SyntaxError) : String :=
  match e.position with
  | none => e.fault.message
  | some p => e.fault.message ++ " at " ++ p.text

end SyntaxError

/-! ### Failures while reading -/

/-- A fault and its place, as the number of characters left from there on. -/
structure Failure where
  /-- What is wrong. -/
  fault : Fault
  /-- How many characters are left at the fault, if it has a place. -/
  left : Option Nat
deriving DecidableEq

namespace Failure

/-- A fault at the first of these characters. -/
def here (fault : Fault) (rest : List Char) : Failure := ⟨fault, some rest.length⟩

/-- The text ends within a construct. -/
def endsIn (what : Construct) : Failure := ⟨.endsIn what, none⟩

/-- **Placing**: a failure that has no place gets that of the first of these characters. -/
def within (rest : List Char) (e : Failure) : Failure :=
  ⟨e.fault, some (e.left.getD rest.length)⟩

/-- The error that a failure is in the whole text. -/
def inText (text : List Char) (e : Failure) : SyntaxError :=
  ⟨e.fault, e.left.map (Position.before text)⟩

end Failure

end ConfigTree
