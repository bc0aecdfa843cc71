import ConfigTree.Text.Fault

/-!
# Blanks and comments

What may stand between any two parts of a document: blank characters, comments to the end
of the line and comments between slash-star and star-slash. `ConfigTree.skip` drops all of
it. It fails at a slash that opens no comment, and where the text ends in an open comment;
a comment to the end of the line may also end with the text.
-/

namespace ConfigTree

/-- A blank character: the ASCII blanks, the no-break space, the byte order mark, the line
and paragraph separators, and every space separator. -/
def isBlank (c : Char) : Bool :=
  ('\t' ≤ c && c ≤ '\r') || c = ' ' || c = '\u00a0' || c = '\u1680' ||
    ('\u2000' ≤ c && c ≤ '\u200a') || c = '\u2028' || c = '\u2029' || c = '\u202f' ||
    c = '\u205f' || c = '\u3000' || c = '\ufeff'

/-- Where a gap between two parts of a document stands. -/
inductive Gap
  /-- Outside of comments. -/
  | plain
  /-- In a comment that the line end closes. -/
  | lineComment
  /-- In a comment that star-slash closes. -/
  | blockComment
deriving DecidableEq

namespace Gap

/-- What is left of a text after the gap. -/
def skip : Gap → List Char → Except Failure (List Char)
  | .plain, [] => .ok []
  | .plain, '/' :: '/' :: rest => skip .lineComment rest
  | .plain, '/' :: '*' :: rest => skip .blockComment rest
  | .plain, '/' :: rest =>
    .error (if rest = [] then .endsIn .comment else .here (.expected .comment) rest)
  | .plain, c :: rest => if isBlank c then skip .plain rest else .ok (c :: rest)
  | .lineComment, [] => .ok []
  | .lineComment, c :: rest => if isLineEnd c then skip .plain rest else skip .lineComment rest
  | .blockComment, [] => .error (.endsIn .comment)
  | .blockComment, '*' :: '/' :: rest => skip .plain rest
  | .blockComment, _ :: rest => skip .blockComment rest

theorem length_skip {gap : Gap} {s r : List Char} (h : gap.skip s = .ok r) :
    r.length ≤ s.length := by
  fun_induction skip gap s with
  | case1 | case6 | case7 => exact Except.ok.inj h ▸ Nat.le_refl _
  | case4 | case10 => nomatch h
  | case2 rest ih | case3 rest ih | case11 rest ih =>
    exact Nat.le_succ_of_le (Nat.le_succ_of_le (ih h))
  | case5 c rest _ _ _ _ ih | case8 c rest _ ih | case9 c rest _ ih | case12 c rest _ ih =>
    exact Nat.le_succ_of_le (ih h)

/-- There is no gap before a character that is neither blank nor a slash. -/
theorem skip_plain_cons {c : Char} (hslash : c ≠ '/') (hblank : isBlank c = false)
    (rest : List Char) : skip .plain (c :: rest) = .ok (c :: rest) := by
  rw [skip, if_neg (by simp [hblank])]
  · rintro _ rfl
    exact absurd rfl hslash
  · rintro _ rfl
    exact absurd rfl hslash
  · rintro rfl
    exact absurd rfl hslash

end Gap

/-- Drops blanks and comments from the start of a text. -/
def skip (s : List Char) : Except Failure (List Char) := Gap.skip .plain s

theorem length_skip {s r : List Char} (h : skip s = .ok r) : r.length ≤ s.length :=
  Gap.length_skip h

end ConfigTree
