import ConfigTree.Number
import ConfigTree.Text.Escape
import ConfigTree.Text.Word

/-!
# Number literals

How numbers are read. A literal has an optional sign and then one of three forms:
`Infinity` or `NaN`, for which there is no number; hexadecimal digits after `0x`; or
decimal digits, possibly with a point and an exponent. A decimal literal is the longest
run of characters that such a literal may hold, and has to be well formed as a whole.

Literals made of digits alone are integers as long as they fit 64 bits, and so are
hexadecimal ones, `ConfigTree.Number.ofMagnitude?`; the others are the nearest double, and
no number when that is out of range. `ConfigTree.Literal.read` answers `none` where there
is no number.
-/

namespace ConfigTree

namespace Literal

/-- The natural number with these decimal digits. -/
def ofDigits (ds : List Char) : Nat := ds.foldl (fun n d => 10 * n + (d.toNat - '0'.toNat)) 0

/-! ### Hexadecimal literals -/

/-- Reads the hexadecimal digits that follow those of `value`; there may be 128 bits. -/
def hexTail (value : Nat) : List Char → Except Failure (Nat × List Char)
  | [] => .ok (value, [])
  | c :: rest =>
    match Escape.hexValue c with
    | none => .ok (value, c :: rest)
    | some d =>
      if 16 * value + d < 1 <<< 128 then hexTail (16 * value + d) rest
      else .error (.here .numberOverflow (c :: rest))

/-- Reads the digits of a hexadecimal literal, of which there has to be one. -/
def hexDigits : List Char → Except Failure (Nat × List Char)
  | [] => .error (.endsIn .number)
  | c :: rest =>
    match Escape.hexValue c with
    | none => .error (.here (.expected .number) (c :: rest))
    | some d => hexTail d rest

/-- Reads a hexadecimal literal after its `0x`; `start` begins with the literal. -/
def hexadecimal (negative : Bool) (start s : List Char) :
    Except Failure (Option Number × List Char) := do
  let (magnitude, rest) ← hexDigits s
  if negative && 1 <<< 127 < magnitude then .error (.here .numberTooLarge start)
  else .ok (Number.ofMagnitude? negative magnitude, rest)

/-! ### Decimal literals -/

/-- A character that a decimal literal may hold. -/
def isDecimalChar (c : Char) : Bool :=
  c.isDigit || c = '+' || c = '-' || c = '.' || c = 'e' || c = 'E'

/-- The exponent that an exponent part stands for: none at all, or a letter, an optional
sign and digits. -/
def exponent? : List Char → Option Int
  | [] => some 0
  | c :: rest =>
    if c = 'e' ∨ c = 'E' then
      let (negative, ds) := match rest with
        | '-' :: ds => (true, ds)
        | '+' :: ds => (false, ds)
        | ds => (false, ds)
      if ds = [] ∨ ¬ ds.all Char.isDigit then none
      else if negative then some (-(ofDigits ds)) else some (ofDigits ds)
    else none

/-- The digits and the power of ten of a decimal literal with a point or an exponent. -/
def decimalParts? (s : List Char) : Option (Nat × Int) :=
  let whole := s.takeWhile Char.isDigit
  let rest := s.dropWhile Char.isDigit
  let (part, rest) := match rest with
    | '.' :: rest => (rest.takeWhile Char.isDigit, rest.dropWhile Char.isDigit)
    | rest => ([], rest)
  if whole = [] ∧ part = [] then none
  else (exponent? rest).map fun e => (ofDigits (whole ++ part), e - part.length)

/-- Reads a decimal literal after its sign; `start` begins with the literal. -/
def decimal (negative : Bool) (start s : List Char) :
    Except Failure (Option Number × List Char) :=
  let body := s.takeWhile isDecimalChar
  let rest := s.dropWhile isDecimalChar
  if body.all Char.isDigit then .ok (Number.ofMagnitude? negative (ofDigits body), rest)
  else match decimalParts? body with
    | some (ds, e) => .ok ((Double.ofDecimal? negative ds e).map .double, rest)
    | none => .error (.here .invalidFloat start)

/-! ### All literals -/

/-- Reads a word that stands for no number. -/
def wordOnly (word s : List Char) : Except Failure (Option Number × List Char) :=
  (readWord .number word s).map (none, ·)

/-- Reads a literal after its sign; `start` begins with the literal. -/
def unsigned (negative : Bool) (start : List Char) :
    List Char → Except Failure (Option Number × List Char)
  | [] => .error (.endsIn .number)
  | 'I' :: rest => wordOnly "Infinity".toList ('I' :: rest)
  | 'N' :: rest => wordOnly "NaN".toList ('N' :: rest)
  | '0' :: 'x' :: rest => hexadecimal negative start rest
  | '0' :: 'X' :: rest => hexadecimal negative start rest
  | '0' :: rest =>
    match rest.head? with
    | some c =>
      if c.isDigit then .error (.here .leadingZero start)
      else if c = '.' ∨ c = 'e' ∨ c = 'E' then decimal negative start ('0' :: rest)
      else .ok (some .zero, rest)
    | none => .ok (some .zero, rest)
  | c :: rest =>
    if c.isDigit ∨ c = '.' then decimal negative start (c :: rest)
    else .error (.here (.expected .number) (c :: rest))

/-- **Reads a number literal**; `none` where it stands for no number. -/
def read : List Char → Except Failure (Option Number × List Char)
  | '-' :: rest => unsigned true ('-' :: rest) rest
  | '+' :: rest => unsigned false ('+' :: rest) rest
  | s => unsigned false s s

/-! ### What is left is shorter -/

theorem length_hexTail {value n : Nat} {s r : List Char} (h : hexTail value s = .ok (n, r)) :
    r.length ≤ s.length := by
  fun_induction hexTail value s with
  | case1 =>
    cases h
    exact Nat.le_refl _
  | case2 =>
    cases h
    exact Nat.le_refl _
  | case3 _ _ _ _ _ _ ih => exact Nat.le_succ_of_le (ih h)
  | case4 => nomatch h

theorem length_hexDigits {n : Nat} {s r : List Char} (h : hexDigits s = .ok (n, r)) :
    r.length < s.length := by
  unfold hexDigits at h
  split at h
  · nomatch h
  · split at h
    · nomatch h
    · exact Nat.lt_succ_of_le (length_hexTail h)

theorem length_hexadecimal {negative : Bool} {n : Option Number} {start s r : List Char}
    (h : hexadecimal negative start s = .ok (n, r)) : r.length < s.length := by
  unfold hexadecimal at h
  simp only [bind, Except.bind] at h
  split at h
  · nomatch h
  · rename_i hd
    split at h
    · nomatch h
    · cases h
      exact length_hexDigits hd

theorem length_dropWhile_le (p : Char → Bool) (s : List Char) :
    (s.dropWhile p).length ≤ s.length := by
  induction s with
  | nil => simp
  | cons c s ih =>
    rw [List.dropWhile_cons]
    split
    · exact Nat.le_succ_of_le ih
    · exact Nat.le_refl _

theorem length_decimal {negative : Bool} {n : Option Number} {c : Char}
    {start s r : List Char} (hc : isDecimalChar c = true)
    (h : decimal negative start (c :: s) = .ok (n, r)) : r.length < (c :: s).length := by
  have hle := length_dropWhile_le isDecimalChar s
  simp only [decimal, List.dropWhile_cons, hc, if_true] at h
  split at h
  · cases h
    exact Nat.lt_succ_of_le hle
  · split at h
    · cases h
      exact Nat.lt_succ_of_le hle
    · nomatch h

theorem length_unsigned {negative : Bool} {n : Option Number} {start s r : List Char}
    (h : unsigned negative start s = .ok (n, r)) : r.length < s.length := by
  unfold unsigned at h
  split at h
  · nomatch h
  · exact length_readWord_map (by decide) h
  · exact length_readWord_map (by decide) h
  · exact Nat.lt_succ_of_lt (Nat.lt_succ_of_lt (length_hexadecimal h))
  · exact Nat.lt_succ_of_lt (Nat.lt_succ_of_lt (length_hexadecimal h))
  · split at h
    · split at h
      · nomatch h
      · split at h
        · exact length_decimal (by decide) h
        · cases h
          exact Nat.lt_succ_self _
    · cases h
      exact Nat.lt_succ_self _
  · split at h
    · rename_i hc
      exact length_decimal (by rcases hc with hc | rfl <;> simp [isDecimalChar, *]) h
    · nomatch h

theorem length_read {n : Option Number} {s r : List Char} (h : read s = .ok (n, r)) :
    r.length < s.length := by
  unfold read at h
  split at h
  · exact Nat.lt_succ_of_lt (length_unsigned h)
  · exact Nat.lt_succ_of_lt (length_unsigned h)
  · exact length_unsigned h

end Literal

end ConfigTree
