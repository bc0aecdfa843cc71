import ConfigTree.ValuePath
import Mathlib

/-!
# Reading a printed place

The text of a path is all that a message tells of a place. It tells the place as long as one can see
where each step begins, which is at a point or at an opening bracket, and so no key may hold these
(`ConfigTree.Step.IsPlain`). Such a text can be read in one way only, from left to right
(`ConfigTree.ValuePath.below_injective`): a key goes on up to the sign of the next step, be it empty
or made of digits and closing brackets, and the digits of an index go on up to their bracket.

That leaves the beginning. The root is printed as a word, and a key at the start has no point before
it. So such a key may not be that word, and it may not be empty, as in front of an index nothing of
it would be seen (`ConfigTree.ValuePath.Legible`).
-/

namespace ConfigTree

/-- **A step without the sign of another one** in its text. -/
def Step.IsPlain : Step → Prop
  | .key name => '.' ∉ name.toList ∧ '[' ∉ name.toList
  | .index _ => True

instance (step : Step) : Decidable step.IsPlain := by
  cases step <;> unfold Step.IsPlain <;> infer_instance

namespace ValuePath

/-- **A path that can be read off its text.** -/
structure Legible (p : ValuePath) : Prop where
  plain : ∀ step ∈ p, step.IsPlain
  first : ∀ step ∈ p.head?, step ≠ .key "" ∧ step ≠ .key "<root>"

/-! ### Where a part of a text ends -/

/-- Two texts that agree are made of the same two parts, if the first parts hold characters of one
kind only and what follows does not begin with such a character. -/
theorem append_inj_of_head? {P : Char → Prop} {cs cs' rest rest' : List Char}
    (hcs : ∀ c ∈ cs, P c) (hcs' : ∀ c ∈ cs', P c) (hrest : ∀ c ∈ rest.head?, ¬P c)
    (hrest' : ∀ c ∈ rest'.head?, ¬P c) (h : cs ++ rest = cs' ++ rest') :
    cs = cs' ∧ rest = rest' := by
  induction cs generalizing cs' with
  | nil =>
    cases cs' with
    | nil => exact ⟨rfl, h⟩
    | cons c cs' =>
      obtain rfl : rest = c :: (cs' ++ rest') := h
      exact absurd (hcs' c List.mem_cons_self) (hrest c rfl)
  | cons c cs ih =>
    cases cs' with
    | nil =>
      obtain rfl : c :: (cs ++ rest) = rest' := h
      exact absurd (hcs c List.mem_cons_self) (hrest' c rfl)
    | cons c' cs' =>
      obtain ⟨rfl, htail⟩ := List.cons.inj h
      obtain ⟨rfl, rfl⟩ := ih (List.forall_mem_cons.1 hcs).2 (List.forall_mem_cons.1 hcs').2 htail
      exact ⟨rfl, rfl⟩

/-- A character that is not the sign of a step. -/
def IsInner (c : Char) : Prop := c ≠ '.' ∧ c ≠ '['

theorem isInner_of_mem_key {name : String} (h : (Step.key name).IsPlain) {c : Char}
    (hc : c ∈ name.toList) : IsInner c :=
  ⟨fun hpoint => h.1 (hpoint ▸ hc), fun hbracket => h.2 (hbracket ▸ hc)⟩

/-- The text of further steps is empty, or begins with the sign of a step. -/
theorem not_isInner_of_below {p : ValuePath} : ∀ c ∈ (below p).toList.head?, ¬IsInner c := by
  intro c hc
  cases p with
  | nil => nomatch hc
  | cons step rest =>
    cases step with
    | key name =>
      obtain rfl : '.' = c := by simpa [below] using hc
      exact fun h => h.1 rfl
    | index i =>
      obtain rfl : '[' = c := by simpa [below] using hc
      exact fun h => h.2 rfl

/-- **Where a key ends**: at the sign of the step after it. -/
theorem key_append_below_inj {name name' : String} {p p' : ValuePath}
    (hname : (Step.key name).IsPlain) (hname' : (Step.key name').IsPlain)
    (h : name ++ below p = name' ++ below p') : name = name' ∧ below p = below p' := by
  have hchars : name.toList ++ (below p).toList = name'.toList ++ (below p').toList := by
    rw [← String.toList_append, h, String.toList_append]
  obtain ⟨hnames, hbelow⟩ := append_inj_of_head? (fun _ => isInner_of_mem_key hname)
    (fun _ => isInner_of_mem_key hname') not_isInner_of_below not_isInner_of_below hchars
  exact ⟨String.toList_inj.1 hnames, String.toList_inj.1 hbelow⟩

/-- **Where an index ends**: at the bracket after its digits. -/
theorem index_append_below_inj {i i' : Nat} {p p' : ValuePath}
    (h : toString i ++ "]" ++ below p = toString i' ++ "]" ++ below p') :
    i = i' ∧ below p = below p' := by
  have hdigits (n : Nat) : ∀ c ∈ n.repr.toList, c.isDigit = true := by
    rw [Nat.toList_repr]
    exact fun c => Nat.isDigit_of_mem_toDigits (by decide) (by decide)
  have hbracket {rest : List Char} : ∀ c ∈ (']' :: rest).head?, ¬c.isDigit = true := by
    rintro c ⟨⟩
    decide
  have hchars : i.repr.toList ++ ']' :: (below p).toList =
      i'.repr.toList ++ ']' :: (below p').toList := by
    simpa using congrArg String.toList h
  obtain ⟨hnumbers, hrest⟩ := append_inj_of_head? (hdigits i) (hdigits i') hbracket hbracket hchars
  exact ⟨Nat.repr_inj.1 (String.toList_inj.1 hnumbers), String.toList_inj.1 (List.cons.inj hrest).2⟩

/-! ### Reading step by step -/

/-- **The first of some steps** can be read off their text. -/
theorem below_cons_inj {step step' : Step} {p p' : ValuePath} (hstep : step.IsPlain)
    (hstep' : step'.IsPlain) (h : below (step :: p) = below (step' :: p')) :
    step = step' ∧ below p = below p' := by
  cases step with
  | key name =>
    cases step' with
    | key name' =>
      simp only [below, String.append_assoc, String.append_right_inj] at h
      obtain ⟨rfl, hbelow⟩ := key_append_below_inj hstep hstep' h
      exact ⟨rfl, hbelow⟩
    | index i' =>
      -- a point is not a bracket
      have hsign := congrArg (fun text => text.toList.head?) h
      simp [below] at hsign
  | index i =>
    cases step' with
    | key name' =>
      have hsign := congrArg (fun text => text.toList.head?) h
      simp [below] at hsign
    | index i' =>
      simp only [below, String.append_assoc, String.append_right_inj] at h
      obtain ⟨rfl, hbelow⟩ := index_append_below_inj (by simpa only [String.append_assoc] using h)
      exact ⟨rfl, hbelow⟩

theorem below_cons_ne_empty (step : Step) (p : ValuePath) : below (step :: p) ≠ "" := by
  cases step <;> simp [below]

/-- **Steps that are printed with their signs** can be read off their text. -/
theorem below_injective {p q : ValuePath} (hp : ∀ step ∈ p, step.IsPlain)
    (hq : ∀ step ∈ q, step.IsPlain) (h : below p = below q) : p = q := by
  induction p generalizing q with
  | nil =>
    cases q with
    | nil => rfl
    | cons step q => exact absurd h.symm (below_cons_ne_empty step q)
  | cons step p ih =>
    cases q with
    | nil => exact absurd h (below_cons_ne_empty step p)
    | cons step' q =>
      obtain ⟨hstep, hrest⟩ := List.forall_mem_cons.1 hp
      obtain ⟨hstep', hrest'⟩ := List.forall_mem_cons.1 hq
      obtain ⟨rfl, hbelow⟩ := below_cons_inj hstep hstep' h
      rw [ih hrest hrest' hbelow]

/-! ### The beginning -/

/-- What the text of a path begins with, before the sign of any step. -/
def opening : ValuePath → String
  | [] => "<root>"
  | .key name :: _ => name
  | .index _ :: _ => ""

/-- The steps of a path that are printed with their signs. -/
def signed : ValuePath → ValuePath
  | [] => []
  | .key _ :: rest => rest
  | .index i :: rest => .index i :: rest

theorem text_eq (p : ValuePath) : p.text = p.opening ++ below p.signed := by
  rcases p with _ | ⟨_ | _, _⟩ <;> simp [text, opening, signed, below]

namespace Legible

variable {p q : ValuePath}

theorem plain_opening (h : p.Legible) : (Step.key p.opening).IsPlain := by
  rcases p with _ | ⟨name | i, rest⟩
  · show (Step.key "<root>").IsPlain
    decide
  · exact h.plain (.key name) List.mem_cons_self
  · show (Step.key "").IsPlain
    decide

theorem plain_signed (h : p.Legible) : ∀ step ∈ p.signed, step.IsPlain := by
  rcases p with _ | ⟨name | i, rest⟩
  · exact h.plain
  · exact (List.forall_mem_cons.1 h.plain).2
  · exact h.plain

theorem opening_key_ne {name : String} {rest : List Step} (h : Legible (.key name :: rest)) :
    name ≠ "" ∧ name ≠ "<root>" := by
  obtain ⟨hempty, hroot⟩ := h.first (.key name) rfl
  exact ⟨fun hname => hempty (hname ▸ rfl), fun hname => hroot (hname ▸ rfl)⟩

/-- **The opening tells** whether a path is the root or begins with a key or with an index. -/
theorem eq_of_opening_eq (hp : p.Legible) (hq : q.Legible) (hopening : p.opening = q.opening)
    (hsigned : p.signed = q.signed) : p = q := by
  -- the root, a key or an index at the start, each against each
  rcases p with _ | ⟨name | i, rest⟩ <;> rcases q with _ | ⟨name' | i', rest'⟩
  · rfl
  · exact absurd hopening.symm hq.opening_key_ne.2
  · nomatch hsigned
  · exact absurd hopening hp.opening_key_ne.2
  · rw [show name = name' from hopening, show rest = rest' from hsigned]
  · exact absurd hopening hp.opening_key_ne.1
  · nomatch hsigned
  · exact absurd hopening.symm hq.opening_key_ne.1
  · exact hsigned

end Legible

/-- **A printed path identifies a place.** Two paths whose keys hold neither a point nor an opening
bracket, and which do not begin with an empty key or one that is spelled as the root, have the same
steps if their texts are the same. -/
theorem eq_of_text_eq {p q : ValuePath} (hp : p.Legible) (hq : q.Legible)
    (h : p.text = q.text) : p = q := by
  rw [text_eq, text_eq] at h
  obtain ⟨hopening, hbelow⟩ := key_append_below_inj hp.plain_opening hq.plain_opening h
  exact hp.eq_of_opening_eq hq hopening (below_injective hp.plain_signed hq.plain_signed hbelow)

/-- Keys with digits and a closing bracket, an index of two digits, and an empty key. -/
theorem steps_of_printed_path :
    ∃ p q : ValuePath, p = [.key "7]", .index 10, .key "", .key "0"] ∧
      q = (((root.key "7]").index 10).key "").key "0" ∧ p.Legible ∧ q.Legible ∧
      p.text = "7][10]..0" ∧ q.text = "7][10]..0" ∧ p = q := by
  let p : ValuePath := [.key "7]", .index 10, .key "", .key "0"]
  let q : ValuePath := (((root.key "7]").index 10).key "").key "0"
  have hp : p.Legible := ⟨by decide, by decide⟩
  have hq : q.Legible := ⟨by decide, by decide⟩
  have hptext : p.text = "7][10]..0" := by decide
  have hqtext : q.text = "7][10]..0" := by decide
  exact ⟨p, q, rfl, rfl, hp, hq, hptext, hqtext, eq_of_text_eq hp hq (hptext.trans hqtext.symm)⟩

/-- A point in a key is printed like the point before a key. -/
example : text [.key "a.b"] = text [.key "a", .key "b"] := by decide

/-- An empty key at the start is not seen in front of an index. -/
example : text [.key "", .index 0] = text [.index 0] := by decide

end ValuePath

end ConfigTree
