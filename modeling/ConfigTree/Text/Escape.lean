import ConfigTree.Text.Fault

/-!
# Escape sequences

What may follow a backslash. `ConfigTree.Escape.unicode` reads the four hexadecimal digits
of a Unicode escape, and a second escape when the first holds half of a surrogate pair; it
serves strings and identifiers. `ConfigTree.Escape.read` reads any escape of a string.
Faults in the digits or the pairing lie at the backslash of the escape; the text from there
on is passed as `start`.
-/

namespace ConfigTree

namespace Escape

/-- The value of a hexadecimal digit. -/
def hexValue (c : Char) : Option Nat :=
  if '0' ≤ c && c ≤ '9' then some (c.toNat - '0'.toNat)
  else if 'a' ≤ c && c ≤ 'f' then some (c.toNat - 'a'.toNat + 10)
  else if 'A' ≤ c && c ≤ 'F' then some (c.toNat - 'A'.toNat + 10)
  else none

/-- Reads `count` hexadecimal digits after the digits of `value`. -/
def hexDigits (start : List Char) : Nat → Nat → List Char → Except Failure (Nat × List Char)
  | 0, value, s => .ok (value, s)
  | _ + 1, _, [] => .error (.endsIn .escapeSequence)
  | count + 1, value, c :: rest =>
    match hexValue c with
    | some d => hexDigits start count (16 * value + d) rest
    | none => .error (.here .invalidEscape start)

/-- The first half of a surrogate pair. -/
def isHighSurrogate (unit : Nat) : Bool := 0xD800 ≤ unit && unit ≤ 0xDBFF

/-- The second half of a surrogate pair. -/
def isLowSurrogate (unit : Nat) : Bool := 0xDC00 ≤ unit && unit ≤ 0xDFFF

/-- The character that a surrogate pair stands for. -/
def pairedChar (high low : Nat) : Char :=
  Char.ofNat (0x10000 + 0x400 * (high - 0xD800) + (low - 0xDC00))

/-- Reads the backslash and the letter that have to follow half of a surrogate pair. -/
def openPair : List Char → Except Failure (List Char)
  | [] => .error (.endsIn .escapeSequence)
  | ['\\'] => .error (.endsIn .escapeSequence)
  | '\\' :: 'u' :: rest => .ok rest
  | '\\' :: rest => .error (.here .invalidEscape rest)
  | s => .error (.here .invalidEscape s)

/-- **A Unicode escape**, after its `u`: four digits, or a high surrogate and a low one. -/
def unicode (start s : List Char) : Except Failure (Char × List Char) := do
  let (unit, rest) ← hexDigits start 4 0 s
  if isHighSurrogate unit || isLowSurrogate unit then
    let (second, rest) ← hexDigits start 4 0 (← openPair rest)
    if isHighSurrogate unit && isLowSurrogate second then .ok (pairedChar unit second, rest)
    else .error (.here (.unpairedSurrogate unit) start)
  else .ok (Char.ofNat unit, rest)

/-- The character that a letter stands for after a backslash, where it is not itself. -/
def control? : Char → Option Char
  | 'b' => some '\x08'
  | 't' => some '\t'
  | 'n' => some '\n'
  | 'v' => some '\x0b'
  | 'f' => some '\x0c'
  | 'r' => some '\r'
  | _ => none

/-- **An escape in a string**, after its backslash: the characters it stands for, none for
an escaped line end. -/
def read (start : List Char) : List Char → Except Failure (List Char × List Char)
  | [] => .error (.endsIn .escapeSequence)
  | '\r' :: '\n' :: rest => .ok ([], rest)
  | 'x' :: rest => do
    let (value, rest) ← hexDigits start 2 0 rest
    .ok ([Char.ofNat value], rest)
  | 'u' :: rest => do
    let (c, rest) ← unicode start rest
    .ok ([c], rest)
  | '0' :: rest =>
    if rest.head?.any Char.isDigit then .error (.here .invalidEscape start)
    else .ok (['\x00'], rest)
  | c :: rest =>
    if isLineEnd c then .ok ([], rest)
    else if c.isDigit then .error (.here .invalidEscape start)
    else .ok ([(control? c).getD c], rest)

/-! ### What is left is shorter -/

theorem length_hexDigits {count value n : Nat} {start s r : List Char}
    (h : hexDigits start count value s = .ok (n, r)) : r.length ≤ s.length := by
  fun_induction hexDigits start count value s with
  | case1 => exact (Prod.mk.inj (Except.ok.inj h)).2 ▸ Nat.le_refl _
  | case2 => nomatch h
  | case3 _ _ _ _ _ _ ih => exact Nat.le_succ_of_le (ih h)
  | case4 => nomatch h

theorem length_openPair {s r : List Char} (h : openPair s = .ok r) : r.length < s.length := by
  unfold openPair at h
  split at h
  · nomatch h
  · nomatch h
  · rw [← Except.ok.inj h]
    exact Nat.lt_succ_of_lt (Nat.lt_succ_self _)
  · nomatch h
  · nomatch h

theorem length_unicode {c : Char} {start s r : List Char}
    (h : unicode start s = .ok (c, r)) : r.length ≤ s.length := by
  unfold unicode at h
  simp only [bind, Except.bind] at h
  split at h
  · simp at h
  · rename_i first hfirst
    have h₁ := length_hexDigits hfirst
    split at h
    · split at h
      · simp at h
      · rename_i hopen
        have h₂ := length_openPair hopen
        split at h
        · simp at h
        · rename_i hsecond
          have h₃ := length_hexDigits hsecond
          split at h
          · rw [← (Prod.mk.inj (Except.ok.inj h)).2]
            omega
          · nomatch h
    · exact (Prod.mk.inj (Except.ok.inj h)).2 ▸ h₁

theorem length_read {start cs s r : List Char} (h : read start s = .ok (cs, r)) :
    r.length < s.length := by
  unfold read at h
  split at h
  · nomatch h
  · cases h
    exact Nat.lt_succ_of_lt (Nat.lt_succ_self _)
  · simp only [bind, Except.bind] at h
    split at h
    · nomatch h
    · rename_i hd
      cases h
      exact Nat.lt_succ_of_le (length_hexDigits hd)
  · simp only [bind, Except.bind] at h
    split at h
    · nomatch h
    · rename_i hu
      cases h
      exact Nat.lt_succ_of_le (length_unicode hu)
  · split at h
    · nomatch h
    · cases h
      exact Nat.lt_succ_self _
  · split at h
    · cases h
      exact Nat.lt_succ_self _
    · split at h
      · nomatch h
      · cases h
        exact Nat.lt_succ_self _

end Escape

end ConfigTree
