import ConfigTree.Text.Fault

/-!
# Words

Reading a fixed word. It fails at the first character that differs from the word, and
where the text ends too early; what follows the word does not matter.
-/

namespace ConfigTree

/-- Reads `word`, which begins or names the construct `what`; what is left of the text. -/
def readWord (what : Construct) : List Char → List Char → Except Failure (List Char)
  | [], s => .ok s
  | _ :: _, [] => .error (.endsIn what)
  | w :: word, c :: rest =>
    if c = w then readWord what word rest else .error (.here (.expected what) (c :: rest))

theorem readWord_append (what : Construct) (word s : List Char) :
    readWord what word (word ++ s) = .ok s := by
  induction word with
  | nil => rfl
  | cons w word ih => simp [readWord, ih]

/-- A word that is read is a beginning of the text. -/
theorem eq_append_of_readWord {what : Construct} {word s r : List Char}
    (h : readWord what word s = .ok r) : s = word ++ r := by
  fun_induction readWord what word s with
  | case1 => exact Except.ok.inj h
  | case2 => nomatch h
  | case3 word w rest ih => rw [ih h, List.cons_append]
  | case4 => nomatch h

theorem length_readWord {what : Construct} {word s r : List Char}
    (h : readWord what word s = .ok r) : r.length + word.length = s.length := by
  rw [eq_append_of_readWord h, List.length_append, Nat.add_comm]

/-- Reading a word that is not empty, to stand for `a`, leaves less. -/
theorem length_readWord_map {α : Type} {a b : α} {what : Construct} {word s r : List Char}
    (hword : word ≠ []) (h : (readWord what word s).map (a, ·) = .ok (b, r)) :
    r.length < s.length := by
  have := List.length_pos_iff.2 hword
  cases hw : readWord what word s with
  | error e =>
    rw [hw] at h
    nomatch h
  | ok r' =>
    rw [hw] at h
    cases h
    have := length_readWord hw
    omega

end ConfigTree
