import ConfigTree.Text.Escape
import ConfigTree.Text.IdentifierRanges
import ConfigTree.Text.Rest

/-!
# Identifiers

Keys that stand without quotation marks: a letter, a dollar sign or an underscore, and
then any number of these and of marks, digits and connectors. Each character may also be
written as a Unicode escape, which does not make other characters admissible. An
identifier ends at the first character that cannot continue it; a text may not end in one.
-/

namespace ConfigTree

namespace Identifier

/-- A character that can begin an identifier. -/
def isStart (c : Char) : Bool := inRanges c.toNat letterRanges

/-- A character that can continue an identifier. -/
def isPart (c : Char) : Bool := isStart c || inRanges c.toNat markRanges

/-- Reads an escaped character of an identifier after its backslash, with which `start`
begins. -/
def readEscape (start : List Char) : List Char → Except Failure (Char × List Char)
  | [] => .error (.endsIn .identifier)
  | 'u' :: rest => Escape.unicode start rest
  | s => .error (.here .invalidEscape s)

theorem length_readEscape {c : Char} {start s r : List Char}
    (h : readEscape start s = .ok (c, r)) : r.length < s.length := by
  unfold readEscape at h
  split at h
  · nomatch h
  · exact Nat.lt_succ_of_le (Escape.length_unicode h)
  · nomatch h

/-- Reads one character, escaped or not, that satisfies `ok`. -/
def readChar (ok : Char → Bool) : List Char → Except Failure (Char × List Char)
  | [] => .error (.endsIn .identifier)
  | '\\' :: rest => do
    let (c, rest') ← readEscape ('\\' :: rest) rest
    if ok c then .ok (c, rest') else .error (.here (.expected .identifier) ('\\' :: rest))
  | c :: rest =>
    if ok c then .ok (c, rest) else .error (.here (.expected .identifier) (c :: rest))

theorem length_readChar {ok : Char → Bool} {c : Char} {s r : List Char}
    (h : readChar ok s = .ok (c, r)) : r.length < s.length := by
  unfold readChar at h
  split at h
  · nomatch h
  · simp only [bind, Except.bind] at h
    split at h
    · nomatch h
    · rename_i he
      split at h
      · cases h
        exact Nat.lt_succ_of_lt (length_readEscape he)
      · nomatch h
  · split at h
    · cases h
      exact Nat.lt_succ_self _
    · nomatch h

/-- Whether an identifier ends before these characters: the first one is not escaped and
cannot continue it. -/
def endsBefore (s : List Char) : Bool := s.head?.any fun c => c ≠ '\\' && !isPart c

/-- Reads the characters that continue an identifier. -/
def readTail (s : List Char) : Except Failure (List Char × List Char) :=
  if endsBefore s then .ok ([], s)
  else
    match shorter (readChar isPart s) fun _ _ => length_readChar with
    | .error e => .error e
    | .ok (c, ⟨rest, _⟩) => (readTail rest).map fun (cs, r) => (c :: cs, r)
termination_by s.length

theorem length_readTail {cs s r : List Char} (h : readTail s = .ok (cs, r)) :
    r.length < s.length + 1 := by
  fun_induction readTail s generalizing cs r with
  | case1 =>
    cases h
    exact Nat.lt_succ_self _
  | case2 => nomatch h
  | case3 s _ c rest hrest _ ih =>
    exact Nat.lt_of_lt_of_le (length_of_map h (fun _ => rfl) fun _ _ => ih) (by omega)

/-- **Reads an identifier.** -/
def read (s : List Char) : Except Failure (List Char × List Char) :=
  match readChar isStart s with
  | .error e => .error e
  | .ok (c, rest) => (readTail rest).map fun (cs, r) => (c :: cs, r)

theorem length_read {cs s r : List Char} (h : read s = .ok (cs, r)) : r.length < s.length := by
  unfold read at h
  split at h
  · nomatch h
  · rename_i hc
    have := length_readChar hc
    exact Nat.lt_of_lt_of_le (length_of_map h (fun _ => rfl) fun _ _ => length_readTail)
      (by omega)

end Identifier

end ConfigTree
