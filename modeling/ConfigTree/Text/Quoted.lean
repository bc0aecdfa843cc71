import ConfigTree.Text.Escape
import ConfigTree.Text.Rest

/-!
# Quoted strings

Strings between quotation marks, as they are read and as they are written. Reading accepts
single and double quotation marks, the closing one being the same as the opening one, and
every escape of `ConfigTree.Escape.read`; a raw line feed or carriage return may not stand
in a string. Writing uses double quotation marks and escapes only what has to be: the
quotation mark, the backslash and the control characters below the space.
-/

namespace ConfigTree

namespace Quoted

/-- Reads one character of a string, or one escape. -/
def readPart : List Char → Except Failure (List Char × List Char)
  | [] => .error (.endsIn .string)
  | '\\' :: rest => Escape.read ('\\' :: rest) rest
  | c :: rest =>
    if c = '\n' ∨ c = '\r' then .error (.here .lineEndInString (c :: rest)) else .ok ([c], rest)

theorem length_readPart {cs s r : List Char} (h : readPart s = .ok (cs, r)) :
    r.length < s.length := by
  unfold readPart at h
  split at h
  · nomatch h
  · exact Nat.lt_succ_of_lt (Escape.length_read h)
  · split at h
    · nomatch h
    · cases h
      exact Nat.lt_succ_self _

/-- **Reads a string** after its opening quotation mark `quote`, up to the closing one. -/
def read (quote : Char) (s : List Char) : Except Failure (List Char × List Char) :=
  if s.head? = some quote then .ok ([], s.tail)
  else
    match shorter (readPart s) fun _ _ => length_readPart with
    | .error e => .error e
    | .ok (cs, ⟨rest, _⟩) => (read quote rest).map fun (ds, r) => (cs ++ ds, r)
termination_by s.length

theorem length_read {quote : Char} {cs s r : List Char} (h : read quote s = .ok (cs, r)) :
    r.length < s.length + 1 := by
  fun_induction read quote s generalizing cs r with
  | case1 s _ =>
    cases h
    exact Nat.lt_succ_of_le (by simp)
  | case2 => nomatch h
  | case3 s _ ds rest hrest _ ih =>
    exact Nat.lt_of_lt_of_le (length_of_map h (fun _ => rfl) fun _ _ => ih) (by omega)

/-! ### Writing -/

/-- A control character below the space as a Unicode escape. -/
def controlEscape (c : Char) : List Char :=
  ['\\', 'u', '0', '0', Nat.digitChar (c.toNat / 16), Nat.digitChar (c.toNat % 16)]

/-- A character of a string, escaped if it has to be. -/
def writeChar : Char → List Char
  | '\x22' => ['\\', '\x22']
  | '\\' => ['\\', '\\']
  | '\x08' => ['\\', 'b']
  | '\t' => ['\\', 't']
  | '\n' => ['\\', 'n']
  | '\x0c' => ['\\', 'f']
  | '\r' => ['\\', 'r']
  | c => if c.toNat < 0x20 then controlEscape c else [c]

/-- **A string in quotation marks.** -/
def write (cs : List Char) : List Char := '\x22' :: (cs.flatMap writeChar ++ ['\x22'])

end Quoted

end ConfigTree
