import ConfigTree.Text.Fault

/-!
# What is left of a text

Reading something at the start of a text gives what was read and what is left. Functions
that read repeatedly end because less is left each time; `ConfigTree.Rest` is a rest with
that knowledge, and `ConfigTree.shorter` adds it to the outcome of a function for which it
is known.
-/

namespace ConfigTree

/-- What is left of a text after something was read from it. -/
abbrev Rest (s : List Char) := { r : List Char // r.length < s.length }

/-- The same outcome, with the knowledge that less is left. -/
def shorter {α : Type} {s : List Char} (x : Except Failure (α × List Char))
    (h : ∀ a r, x = .ok (a, r) → r.length < s.length) : Except Failure (α × Rest s) :=
  match x, h with
  | .error e, _ => .error e
  | .ok (a, r), h => .ok (a, ⟨r, h a r rfl⟩)

theorem shorter_of_error {α : Type} {s : List Char} {x : Except Failure (α × List Char)}
    {h : ∀ a r, x = .ok (a, r) → r.length < s.length} {e : Failure} (hx : x = .error e) :
    shorter x h = .error e := by
  subst hx
  rfl

theorem shorter_of_ok {α : Type} {s : List Char} {x : Except Failure (α × List Char)}
    {h : ∀ a r, x = .ok (a, r) → r.length < s.length} {a : α} {r : List Char}
    (hx : x = .ok (a, r)) : shorter x h = .ok (a, ⟨r, h a r hx⟩) := by
  subst hx
  rfl

/-- What is left after a function was applied to what was read is as short as before. -/
theorem length_of_map {α β : Type} {f : α × List Char → β × List Char}
    {x : Except Failure (α × List Char)} {b : β} {r : List Char} {n : Nat}
    (h : x.map f = .ok (b, r)) (hf : ∀ p, (f p).2 = p.2)
    (hx : ∀ a r, x = .ok (a, r) → r.length < n) : r.length < n := by
  cases x with
  | error e => simp [Except.map] at h
  | ok p =>
    have hp := hf p
    simp only [Except.map, Except.ok.injEq] at h
    rw [h] at hp
    have hr : r = p.2 := hp
    exact hr ▸ hx p.1 p.2 rfl

end ConfigTree
