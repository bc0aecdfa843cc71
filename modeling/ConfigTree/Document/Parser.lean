import ConfigTree.Document
import ConfigTree.Number.Literal
import ConfigTree.Text.Blank
import ConfigTree.Text.Identifier
import ConfigTree.Text.Quoted

/-!
# Reading documents

The lenient notation of documents: blanks and comments between any two parts, strings in
either quotation mark, keys that are identifiers, a comma after the last item or member,
and the number literals of `ConfigTree.Literal`. `ConfigTree.Document.parse` reads a whole
text; `ConfigTree.Document.read` reads the document at the start of one and says what is
left.

Nothing checks what follows a document there: its surroundings do, as they know which
character has to come. Of members with one key the last one counts, at the place of the
first (`ConfigTree.Members.put`). A failure that has no place of its own gets that of the
innermost open bracket.

What is left is always shorter than what was given, and the functions that recurse return
it with a proof of that (`ConfigTree.Rest`), which is why they end.
-/

namespace ConfigTree

/-- Rewording an error leaves a success as it is. -/
theorem mapError_eq_ok_iff {ε ε' α : Type} {x : Except ε α} {f : ε → ε'} {a : α} :
    x.mapError f = .ok a ↔ x = .ok a := by
  rcases x with e | b
  · constructor <;> rintro ⟨⟩
  · constructor <;> rintro ⟨⟩ <;> rfl

namespace Document

/-! ### Scalars -/

/-- Reads a string after its opening quotation mark. -/
def readString (quote : Char) (s : List Char) : Except Failure (String × List Char) :=
  (Quoted.read quote s).map fun (cs, r) => (String.ofList cs, r)

/-- Reads a scalar. -/
def readScalar : List Char → Except Failure (Scalar × List Char)
  | [] => .error (.endsIn .value)
  | c :: rest =>
    if c = 'n' then (readWord .null "null".toList (c :: rest)).map (.null, ·)
    else if c = 't' then (readWord .bool "true".toList (c :: rest)).map (.bool true, ·)
    else if c = 'f' then (readWord .bool "false".toList (c :: rest)).map (.bool false, ·)
    else if c = '\x22' ∨ c = '\x27' then (readString c rest).map fun (s, r) => (.string s, r)
    else if c = '+' ∨ c = '-' ∨ c = '.' ∨ c = 'I' ∨ c = 'N' ∨ c.isDigit then
      (Literal.read (c :: rest)).map fun (n, r) => (n.elim .null .number, r)
    else .error (.here (.expected .value) (c :: rest))

/-- Reads the key of a member: a string or an identifier. -/
def readKey : List Char → Except Failure (String × List Char)
  | [] => .error (.endsIn .object)
  | c :: rest =>
    if c = '\x22' ∨ c = '\x27' then readString c rest
    else (Identifier.read (c :: rest)).map fun (cs, r) => (String.ofList cs, r)

/-- Reads a key and the colon after it. -/
def readKeyColon (s : List Char) : Except Failure (String × List Char) := do
  let (name, rest) ← readKey s
  match ← skip rest with
  | [] => .error (.endsIn .object)
  | ':' :: rest => .ok (name, rest)
  | rest => .error (.here (.expected .colon) rest)

theorem length_readString {quote : Char} {t : String} {s r : List Char}
    (h : readString quote s = .ok (t, r)) : r.length < s.length + 1 :=
  length_of_map h (fun _ => rfl) fun _ _ => Quoted.length_read

theorem length_readScalar {a : Scalar} {s r : List Char} (h : readScalar s = .ok (a, r)) :
    r.length < s.length := by
  unfold readScalar at h
  split at h
  · simp at h
  · split at h
    · exact length_readWord_map (by decide) h
    · split at h
      · exact length_readWord_map (by decide) h
      · split at h
        · exact length_readWord_map (by decide) h
        · split at h
          · exact length_of_map h (fun _ => rfl) fun _ _ => length_readString
          · split at h
            · exact length_of_map h (fun _ => rfl) fun _ _ => Literal.length_read
            · simp at h

theorem length_readKey {t : String} {s r : List Char} (h : readKey s = .ok (t, r)) :
    r.length < s.length := by
  unfold readKey at h
  split at h
  · simp at h
  · split at h
    · exact length_readString h
    · exact length_of_map h (fun _ => rfl) fun _ _ => Identifier.length_read

theorem length_readKeyColon {t : String} {s r : List Char} (h : readKeyColon s = .ok (t, r)) :
    r.length < s.length := by
  unfold readKeyColon at h
  simp only [bind, Except.bind] at h
  split at h
  · simp at h
  · rename_i hk
    have := length_readKey hk
    split at h
    · simp at h
    · rename_i hs
      have := length_skip hs
      split at h
      · nomatch h
      · cases h
        simp only [List.length_cons] at this
        omega
      · nomatch h

/-! ### Documents -/

/-- The members of an object as its text lists them: the last value of a key counts, at
the place of the first. -/
def ofPairs (pairs : List (String × Document)) : Members Document :=
  pairs.foldl (fun members pair => members.put pair.1 pair.2) []

/-- Drops blanks and comments, with the knowledge that what is left is not longer. -/
def skipBlanks (s : List Char) : Except Failure { r : List Char // r.length ≤ s.length } :=
  match h : skip s with
  | .error e => .error e
  | .ok r => .ok ⟨r, length_skip h⟩

theorem skipBlanks_of_error {s : List Char} {e : Failure} (h : skip s = .error e) :
    skipBlanks s = .error e := by
  unfold skipBlanks
  split
  · rename_i he
    cases he.symm.trans h
    rfl
  · rename_i hr
    nomatch hr.symm.trans h

theorem skipBlanks_of_ok {s r : List Char} (h : skip s = .ok r) :
    skipBlanks s = .ok ⟨r, length_skip h⟩ := by
  unfold skipBlanks
  split
  · rename_i he
    nomatch he.symm.trans h
  · rename_i hr
    cases hr.symm.trans h
    rfl

mutual

/-- **Reads a document** at the start of a text, after blanks and comments. -/
def read (s : List Char) : Except Failure (Document × Rest s) :=
  match skipBlanks s with
  | .error e => .error e
  | .ok ⟨[], _⟩ => .error (.endsIn .value)
  | .ok ⟨c :: rest, hs⟩ =>
    if c = '[' then
      match (readItems rest).mapError (Failure.within (c :: rest)) with
      | .error e => .error e
      | .ok (items, ⟨r, hr⟩) => .ok (.array items, ⟨r, Nat.lt_trans hr hs⟩)
    else if c = '\x7b' then
      match (readMembers rest).mapError (Failure.within (c :: rest)) with
      | .error e => .error e
      | .ok (pairs, ⟨r, hr⟩) => .ok (.object (ofPairs pairs), ⟨r, Nat.lt_trans hr hs⟩)
    else
      match shorter (readScalar (c :: rest)) fun _ _ => length_readScalar with
      | .error e => .error e
      | .ok (a, ⟨r, hr⟩) => .ok (.scalar a, ⟨r, Nat.lt_of_lt_of_le hr hs⟩)
termination_by 2 * s.length
decreasing_by
  all_goals
    have : rest.length < s.length := hs
    omega

/-- Reads the items of an array and its closing bracket. -/
def readItems (s : List Char) : Except Failure (List Document × Rest s) :=
  match skipBlanks s with
  | .error e => .error e
  | .ok ⟨[], _⟩ => .error (.endsIn .value)
  | .ok ⟨c :: rest, hs⟩ =>
    if c = ']' then .ok ([], ⟨rest, hs⟩)
    else
      match read (c :: rest) with
      | .error e => .error e
      | .ok (item, ⟨afterItem, hi⟩) =>
        match skipBlanks afterItem with
        | .error e => .error e
        | .ok ⟨[], _⟩ => .error (.endsIn .array)
        | .ok ⟨c' :: rest', ha⟩ =>
          have hr : rest'.length < s.length := Nat.lt_trans ha (Nat.lt_of_lt_of_le hi hs)
          if c' = ']' then .ok ([item], ⟨rest', hr⟩)
          else if c' = ',' then
            match readItems rest' with
            | .error e => .error e
            | .ok (items, ⟨r, hr'⟩) => .ok (item :: items, ⟨r, Nat.lt_trans hr' hr⟩)
          else .error (.here (.expected .comma) (c' :: rest'))
termination_by 2 * s.length + 1
decreasing_by all_goals omega

/-- Reads the members of an object and its closing brace. -/
def readMembers (s : List Char) : Except Failure (List (String × Document) × Rest s) :=
  match skipBlanks s with
  | .error e => .error e
  | .ok ⟨[], _⟩ => .error (.endsIn .object)
  | .ok ⟨c :: rest, hs⟩ =>
    if c = '\x7d' then .ok ([], ⟨rest, hs⟩)
    else
      match shorter (readKeyColon (c :: rest)) fun _ _ => length_readKeyColon with
      | .error e => .error e
      | .ok (name, ⟨afterKey, hk⟩) =>
        match read afterKey with
        | .error e => .error e
        | .ok (d, ⟨afterValue, hv⟩) =>
          match skipBlanks afterValue with
          | .error e => .error e
          | .ok ⟨[], _⟩ => .error (.endsIn .object)
          | .ok ⟨c' :: rest', ha⟩ =>
            have hr : rest'.length < s.length :=
              Nat.lt_trans ha (Nat.lt_trans hv (Nat.lt_of_lt_of_le hk hs))
            if c' = '\x7d' then .ok ([(name, d)], ⟨rest', hr⟩)
            else if c' = ',' then
              match readMembers rest' with
              | .error e => .error e
              | .ok (pairs, ⟨r, hr'⟩) => .ok ((name, d) :: pairs, ⟨r, Nat.lt_trans hr' hr⟩)
            else .error (.here (.expected .comma) (c' :: rest'))
termination_by 2 * s.length + 1
decreasing_by all_goals omega

end

/-- Reads a document that is the whole text, but for blanks and comments. -/
def readWhole (s : List Char) : Except Failure Document := do
  let (d, rest) ← read s
  match ← skip rest with
  | [] => .ok d
  | rest => .error (.here .trailingCharacters rest)

/-- **The document that a text holds.** -/
def parse (text : String) : Except SyntaxError Document :=
  (readWhole text.toList).mapError (Failure.inText text.toList)

end Document

end ConfigTree
