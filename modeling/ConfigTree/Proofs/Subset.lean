import ConfigTree.Document.Subset
import Mathlib.Data.List.Induction
import Mathlib.Order.Bounds.Basic
import Mathlib.Order.MinMax

/-!
# What a subset of a document holds

A subset is built by inserting one part of a document after the other. The invariant is
`ConfigTree.Document.Mirrors`: what was built so far **mirrors** the document along the
paths inserted so far. Below such a path it is the document itself; on the way to one it is
an object or array of the same kind, which has the next keys in the order of their first
insertion, or as many items as the greatest next index asks for; and apart from them it
holds nothing, or `null` in front of an item.

One insertion keeps the invariant (`ConfigTree.Document.Mirrors.insertAt`), whatever was
inserted before: a path below an earlier one changes nothing, and a path above earlier ones
only completes what is there. So a subset mirrors the document along all of its paths at
which something was found (`ConfigTree.Document.mirrors_subset`), and what it holds at
a path is read off the invariant (`ConfigTree.Document.Mirrors.find?_of_mem`,
`ConfigTree.Document.Mirrors.find?_on_way`, `ConfigTree.Document.Mirrors.find?_apart`).
-/

namespace ConfigTree

namespace ValuePath

/-! ### The next steps of paths -/

/-- What follows this step on a path that begins with it. -/
def tail? (step : Step) : ValuePath → Option ValuePath
  | [] => none
  | first :: rest => if first = step then some rest else none

/-- What follows this step on those paths that begin with it. -/
def tails (step : Step) (paths : List ValuePath) : List ValuePath := paths.filterMap (tail? step)

/-- What follows `q` on those paths that begin with it. -/
def tailsAt (q : ValuePath) (paths : List ValuePath) : List ValuePath :=
  q.foldl (fun paths step => tails step paths) paths

/-- Adds the key that a path begins with, unless it is there already. -/
def addKey (keys : List String) : ValuePath → List String
  | .key name :: _ => if name ∈ keys then keys else keys ++ [name]
  | _ => keys

/-- The keys that paths begin with, in the order of their first occurrence. -/
def nextKeys (paths : List ValuePath) : List String := paths.foldl addKey []

/-- Makes room for the index that a path begins with. -/
def addIndex (n : Nat) : ValuePath → Nat
  | .index i :: _ => max n (i + 1)
  | _ => n

/-- One more than the greatest index that paths begin with, or zero. -/
def nextLength (paths : List ValuePath) : Nat := paths.foldl addIndex 0

theorem tail?_eq_some_iff {step : Step} {p rest : ValuePath} :
    tail? step p = some rest ↔ p = step :: rest := by
  rcases p with _ | ⟨first, p⟩
  · simp [tail?]
  · rw [tail?]
    split
    · simp [*]
    · simp [*]

theorem mem_tails {step : Step} {paths : List ValuePath} {rest : ValuePath} :
    rest ∈ tails step paths ↔ step :: rest ∈ paths := by
  simp [tails, tail?_eq_some_iff]

theorem tails_append (step : Step) (paths more : List ValuePath) :
    tails step (paths ++ more) = tails step paths ++ tails step more :=
  List.filterMap_append

theorem tails_snoc_self (step : Step) (paths : List ValuePath) (rest : ValuePath) :
    tails step (paths ++ [step :: rest]) = tails step paths ++ [rest] := by
  rw [tails_append]
  simp [tails, tail?]

theorem tails_snoc_of_ne {step first : Step} (h : first ≠ step) (paths : List ValuePath)
    (rest : ValuePath) : tails step (paths ++ [first :: rest]) = tails step paths := by
  rw [tails_append]
  simp [tails, tail?, h]

theorem tails_eq_nil_iff {step : Step} {paths : List ValuePath} :
    tails step paths = [] ↔ ∀ rest, step :: rest ∉ paths := by
  simp only [List.eq_nil_iff_forall_not_mem, mem_tails]

/-- Paths that end neither at a place nor above it, from one step towards the place. -/
theorem not_prefix_of_mem_tails {step : Step} {q : ValuePath} {paths : List ValuePath}
    (h : ∀ p ∈ paths, ¬p <+: step :: q) : ∀ rest ∈ tails step paths, ¬rest <+: q := by
  intro rest hrest hpre
  exact h (step :: rest) (mem_tails.1 hrest) (List.cons_prefix_cons.2 ⟨rfl, hpre⟩)

@[simp] theorem tailsAt_nil (paths : List ValuePath) : tailsAt [] paths = paths := rfl

@[simp] theorem tailsAt_cons (step : Step) (q : ValuePath) (paths : List ValuePath) :
    tailsAt (step :: q) paths = tailsAt q (tails step paths) := rfl

theorem tailsAt_of_nil (q : ValuePath) : tailsAt q [] = [] := by
  induction q with
  | nil => rfl
  | cons step q ih => exact ih

theorem mem_tailsAt {q : ValuePath} {paths : List ValuePath} {rest : ValuePath} :
    rest ∈ tailsAt q paths ↔ q ++ rest ∈ paths := by
  induction q generalizing paths with
  | nil => rfl
  | cons step q ih => rw [tailsAt_cons, ih, mem_tails, List.cons_append]

theorem nextKeys_snoc (paths : List ValuePath) (p : ValuePath) :
    nextKeys (paths ++ [p]) = addKey (nextKeys paths) p := by
  rw [nextKeys, List.foldl_append]
  rfl

theorem mem_nextKeys {paths : List ValuePath} {name : String} :
    name ∈ nextKeys paths ↔ ∃ rest, .key name :: rest ∈ paths := by
  induction paths using List.reverseRecOn with
  | nil => simp [nextKeys]
  | append_singleton paths p ih =>
    rw [nextKeys_snoc]
    rcases p with _ | ⟨key | i, rest⟩
    · simp [addKey, ih]
    · rw [addKey]
      by_cases hname : name = key
      · subst hname
        split <;> simp_all
      · split <;> simp [ih, hname]
    · simp [addKey, ih]

/-- No next key is listed twice. -/
theorem nodup_nextKeys (paths : List ValuePath) : (nextKeys paths).Nodup := by
  induction paths using List.reverseRecOn with
  | nil => exact List.nodup_nil
  | append_singleton paths p ih =>
    rw [nextKeys_snoc]
    rcases p with _ | ⟨key | i, rest⟩
    · exact ih
    · rw [addKey]
      split
      · exact ih
      · rename_i hkey
        refine List.nodup_append.2 ⟨ih, by simp, ?_⟩
        simpa using fun _ h => ne_of_mem_of_not_mem h hkey
    · exact ih

theorem nextLength_snoc (paths : List ValuePath) (p : ValuePath) :
    nextLength (paths ++ [p]) = addIndex (nextLength paths) p := by
  rw [nextLength, List.foldl_append]
  rfl

/-- An index is below the next length exactly when a path begins with it or with a greater
one. -/
theorem lt_nextLength_iff {paths : List ValuePath} {i : Nat} :
    i < nextLength paths ↔ ∃ j rest, i ≤ j ∧ .index j :: rest ∈ paths := by
  induction paths using List.reverseRecOn with
  | nil => simp [nextLength]
  | append_singleton paths p ih =>
    rw [nextLength_snoc]
    rcases p with _ | ⟨key | k, rest⟩
    · simp [addIndex, ih]
    · simp [addIndex, ih]
    · rw [addIndex, lt_max_iff, ih]
      constructor
      · rintro (⟨j, tail, hij, hmem⟩ | hik)
        · exact ⟨j, tail, hij, List.mem_append_left _ hmem⟩
        · exact ⟨k, rest, by omega, by simp⟩
      · rintro ⟨j, tail, hij, hmem⟩
        rcases List.mem_append.1 hmem with hmem | hmem
        · exact Or.inl ⟨j, tail, hij, hmem⟩
        · obtain ⟨rfl, rfl⟩ : j = k ∧ tail = rest := by simpa using hmem
          exact Or.inr (by omega)

/-- The greatest index that paths begin with is one less than their next length. -/
theorem isGreatest_of_nextLength {paths : List ValuePath} {k : Nat} (h : nextLength paths = k + 1) :
    IsGreatest {i | ∃ rest, .index i :: rest ∈ paths} k := by
  have hbound : ∀ i rest, .index i :: rest ∈ paths → i ≤ k := fun i rest hmem => by
    have := lt_nextLength_iff.2 ⟨i, rest, le_rfl, hmem⟩
    omega
  refine ⟨?_, fun i hi => ?_⟩
  · obtain ⟨j, rest, hkj, hmem⟩ := lt_nextLength_iff.1 (show k < nextLength paths by omega)
    obtain rfl : k = j := le_antisymm hkj (hbound j rest hmem)
    exact ⟨rest, hmem⟩
  · obtain ⟨rest, hmem⟩ := hi
    exact hbound i rest hmem

end ValuePath

namespace Document

open ValuePath

/-! ### Insertion -/

/-- Below one step, keys are still distinct. -/
theorem Distinct.child {d child : Document} {step : Step} (h : d.Distinct)
    (hchild : d.child? step = some child) : child.Distinct := by
  rcases d with s | items | members <;> rcases step with name | i <;>
    simp only [Document.child?, reduceCtorEq] at hchild
  · exact distinctItems_iff.1 h child (List.mem_of_getElem? hchild)
  · exact distinctMembers_iff.1 h.2 _ (Members.mem_of_get? hchild)

/-- There is no step into `null`. -/
@[simp] theorem child?_null (step : Step) : null.child? step = none := by
  cases step <;> rfl

theorem members_null : null.members = [] := rfl

theorem items_null : null.items = [] := rfl

/-- Insertion below the root of a slot only looks at its members or at its items. -/
theorem insertAt_congr {value slot slot' : Document} {p : ValuePath}
    (hmembers : slot.members = slot'.members) (hitems : slot.items = slot'.items) :
    insertAt value p slot = insertAt value p slot' := by
  rcases p with _ | ⟨_ | _, rest⟩
  · rfl
  · rw [insertAt, insertAt, hmembers]
  · rw [insertAt, insertAt, hitems]

theorem put_self {members : Members Document} {name : String} {d : Document}
    (h : members.get? name = some d) : members.put name d = members := by
  induction members with
  | nil => simp at h
  | cons member rest ih =>
    obtain ⟨key, value⟩ := member
    rw [Members.get?_cons] at h
    rw [Members.put]
    split
    · simp_all
    · rename_i hkey
      rw [if_neg hkey] at h
      rw [ih h]

theorem padded_of_lt {items : List Document} {i : Nat} (h : i < items.length) :
    padded items (i + 1) = items := by
  rw [padded, show i + 1 - items.length = 0 by omega]
  simp

/-- Inserting what is there already changes nothing. -/
theorem insertAt_self {d value : Document} {p : ValuePath} (h : d.find? p = some value) :
    insertAt value p d = d := by
  induction p generalizing d with
  | nil => exact (Option.some.inj h).symm
  | cons step rest ih =>
    rw [find?_cons, Option.bind_eq_some_iff] at h
    obtain ⟨child, hchild, hrest⟩ := h
    rcases d with _ | parts | parts <;> rcases step with name | i <;>
      simp only [child?, reduceCtorEq] at hchild
    · obtain ⟨hi, -⟩ := List.getElem?_eq_some_iff.1 hchild
      simp only [insertAt, items, padded_of_lt hi, hchild, Option.getD_some, ih hrest]
      rw [List.getElem?_eq_some_iff] at hchild
      obtain ⟨hi, rfl⟩ := hchild
      rw [List.set_getElem_self]
    · simp only [insertAt, members, hchild, Option.getD_some, ih hrest, put_self hchild]

/-! ### Mirroring -/

/-- **Mirroring**: what `slot` holds of a document when its parts at these paths are in it,
each at its own place. -/
inductive Mirrors : Document → List ValuePath → Document → Prop
  /-- Along no path, nothing. -/
  | blank (d : Document) : Mirrors d [] null
  /-- At the end of a path, the document itself. -/
  | whole {d : Document} {paths : List ValuePath} : [] ∈ paths → Mirrors d paths d
  /-- On the way into an object, an object with the next keys, which mirrors the members under
  these. -/
  | object {members part : Members Document} {paths : List ValuePath} : paths ≠ [] → [] ∉ paths →
      part.keys = nextKeys paths →
      (∀ name value value', members.get? name = some value → part.get? name = some value' →
        Mirrors value (tails (.key name) paths) value') →
      Mirrors (.object members) paths (.object part)
  /-- On the way into an array, an array up to the greatest next index, which mirrors the
  items there. -/
  | array {items part : List Document} {paths : List ValuePath} : paths ≠ [] → [] ∉ paths →
      part.length = nextLength paths →
      (∀ i item item', items[i]? = some item → part[i]? = some item' →
        Mirrors item (tails (.index i) paths) item') →
      Mirrors (.array items) paths (.array part)

namespace Mirrors

variable {members part : Members Document} {items slots : List Document} {paths : List ValuePath}

/-- The slot of a member mirrors its value, whether or not the member is there yet. -/
theorem getD_get? {name : String} {child : Document} (hkeys : part.keys = nextKeys paths)
    (hpart : ∀ name value value', members.get? name = some value → part.get? name = some value' →
      Mirrors value (tails (.key name) paths) value') (hchild : members.get? name = some child) :
    Mirrors child (tails (.key name) paths) ((part.get? name).getD null) := by
  rcases hslot : part.get? name with _ | slot
  · have hname : name ∉ nextKeys paths := hkeys ▸ Members.get?_eq_none_iff.1 hslot
    have hnil : tails (.key name) paths = [] :=
      tails_eq_nil_iff.2 fun rest hrest => hname (mem_nextKeys.2 ⟨rest, hrest⟩)
    rw [hnil]
    exact .blank child
  · exact hpart name child slot hchild hslot

/-- The slot of an item mirrors it, whether it was there before or was filled in. -/
theorem of_padded {n i : Nat} {item slot : Document} (hlength : slots.length = nextLength paths)
    (hslots : ∀ i item item', items[i]? = some item → slots[i]? = some item' →
      Mirrors item (tails (.index i) paths) item') (hitem : items[i]? = some item)
    (hslot : (padded slots n)[i]? = some slot) : Mirrors item (tails (.index i) paths) slot := by
  rw [padded, List.getElem?_append] at hslot
  split at hslot
  · exact hslots i item slot hitem hslot
  · rename_i hi
    obtain rfl : slot = null :=
      List.eq_of_mem_replicate (List.mem_of_getElem? hslot)
    have hnil : tails (.index i) paths = [] := tails_eq_nil_iff.2 fun rest hrest =>
      hi (hlength ▸ lt_nextLength_iff.2 ⟨i, rest, le_rfl, hrest⟩)
    rw [hnil]
    exact .blank item

/-- One more part below a member. -/
theorem put {name : String} {child value : Document} {rest : ValuePath} (hroot : [] ∉ paths)
    (hkeys : part.keys = nextKeys paths)
    (hpart : ∀ name value value', members.get? name = some value → part.get? name = some value' →
      Mirrors value (tails (.key name) paths) value') (hchild : members.get? name = some child)
    (hinsert : ∀ slot, Mirrors child (tails (.key name) paths) slot →
      Mirrors child (tails (.key name) paths ++ [rest]) (Document.insertAt value rest slot)) :
    Mirrors (.object members) (paths ++ [.key name :: rest])
      (.object (part.put name (Document.insertAt value rest ((part.get? name).getD null)))) := by
  refine .object (by simp) (by simpa using hroot) ?_ ?_
  · rw [Members.keys_put, nextKeys_snoc, hkeys, addKey]
  · intro other there here hthere hhere
    rw [Members.get?_put] at hhere
    split at hhere
    · rename_i hother
      subst hother
      obtain rfl : child = there := Option.some.inj (hchild.symm.trans hthere)
      obtain rfl := Option.some.inj hhere
      rw [tails_snoc_self]
      exact hinsert _ (getD_get? hkeys hpart hchild)
    · rename_i hother
      rw [tails_snoc_of_ne (by simpa using hother)]
      exact hpart other there here hthere hhere

/-- One more part below an item. -/
theorem set {i : Nat} {child value : Document} {rest : ValuePath} (hroot : [] ∉ paths)
    (hlength : slots.length = nextLength paths)
    (hslots : ∀ i item item', items[i]? = some item → slots[i]? = some item' →
      Mirrors item (tails (.index i) paths) item') (hchild : items[i]? = some child)
    (hinsert : ∀ slot, Mirrors child (tails (.index i) paths) slot →
      Mirrors child (tails (.index i) paths ++ [rest]) (Document.insertAt value rest slot)) :
    Mirrors (.array items) (paths ++ [.index i :: rest])
      (.array ((padded slots (i + 1)).set i
        (Document.insertAt value rest ((padded slots (i + 1))[i]?.getD null)))) := by
  have hpadded : (padded slots (i + 1)).length = max slots.length (i + 1) := by
    rw [padded, List.length_append, List.length_replicate]
    omega
  refine .array (by simp) (by simpa using hroot) ?_ ?_
  · rw [List.length_set, nextLength_snoc, addIndex, hpadded, hlength]
  · intro j there here hthere hhere
    rw [List.getElem?_set] at hhere
    split at hhere
    · rename_i hij
      subst hij
      obtain rfl : child = there := Option.some.inj (hchild.symm.trans hthere)
      have hi : i < (padded slots (i + 1)).length := by omega
      rw [if_pos hi] at hhere
      obtain rfl := Option.some.inj hhere
      rw [tails_snoc_self, List.getElem?_eq_getElem hi, Option.getD_some]
      exact hinsert _ (of_padded hlength hslots hchild (List.getElem?_eq_getElem hi))
    · rename_i hij
      rw [tails_snoc_of_ne (by simpa using hij)]
      exact of_padded hlength hslots hthere hhere

/-- **Insertion keeps mirroring.** -/
theorem insertAt {d value slot : Document} {p : ValuePath} (h : Mirrors d paths slot)
    (hvalue : d.find? p = some value) :
    Mirrors d (paths ++ [p]) (Document.insertAt value p slot) := by
  induction p generalizing d paths slot with
  | nil =>
    obtain rfl := Option.some.inj hvalue
    rw [Document.insertAt]
    exact .whole (by simp)
  | cons step rest ih =>
    have hself := insertAt_self hvalue
    rw [find?_cons, Option.bind_eq_some_iff] at hvalue
    obtain ⟨child, hchild, hrest⟩ := hvalue
    cases h with
    | whole hroot =>
      -- what is inserted is there already
      rw [hself]
      exact .whole (List.mem_append_left _ hroot)
    | blank =>
      rcases d with _ | items | members <;> rcases step with name | i <;>
        simp only [child?, reduceCtorEq] at hchild
      · rw [Document.insertAt, items_null]
        exact set List.not_mem_nil rfl (by simp) hchild fun slot hslot => ih hslot hrest
      · rw [Document.insertAt, members_null]
        exact put List.not_mem_nil rfl (by simp) hchild fun slot hslot => ih hslot hrest
    | @object members part _ hpaths hroot hkeys hpart =>
      rcases step with name | i <;> simp only [child?, reduceCtorEq] at hchild
      rw [Document.insertAt]
      exact put hroot hkeys hpart hchild fun slot hslot => ih hslot hrest
    | @array items slots _ hpaths hroot hlength hslots =>
      rcases step with name | i <;> simp only [child?, reduceCtorEq] at hchild
      rw [Document.insertAt]
      exact set hroot hlength hslots hchild fun slot hslot => ih hslot hrest

end Mirrors

/-- **A subset mirrors the document** along its paths. -/
theorem mirrors_subset {d : Document} {paths : List ValuePath} (hpaths : paths ≠ [])
    (hfound : ∀ p ∈ paths, ∃ value, d.find? p = some value) :
    Mirrors d paths (d.subset paths) := by
  induction paths using List.reverseRecOn with
  | nil => exact absurd rfl hpaths
  | append_singleton paths p ih =>
    obtain ⟨value, hvalue⟩ := hfound p (by simp)
    have hlast : d.subset (paths ++ [p]) = Document.insertAt value p (d.subset paths) := by
      rw [subset, List.foldl_append, ← subset]
      simp only [List.foldl_cons, List.foldl_nil, hvalue, Option.elim_some]
    rw [hlast]
    rcases eq_or_ne paths [] with rfl | hne
    · -- the first part goes into an empty object, which is to insertion what `null` is
      have hblank : Document.insertAt value p (.object []) = Document.insertAt value p null :=
        insertAt_congr rfl rfl
      rw [show d.subset [] = .object [] from rfl, hblank]
      exact (Mirrors.blank d).insertAt hvalue
    · exact (ih hne fun p hp => hfound p (List.mem_append_left _ hp)).insertAt hvalue

/-! ### What a mirror holds -/

/-- Paths on which a document has something, from one step below it. -/
theorem find?_of_mem_tails {d child : Document} {paths : List ValuePath} {step : Step}
    (hfound : ∀ p ∈ paths, ∃ value, d.find? p = some value) (hchild : d.child? step = some child) :
    ∀ rest ∈ tails step paths, ∃ value, child.find? rest = some value := by
  intro rest hrest
  obtain ⟨value, hvalue⟩ := hfound _ (mem_tails.1 hrest)
  rw [find?_cons, hchild] at hvalue
  exact ⟨value, hvalue⟩

theorem child?_of_mem {d : Document} {paths : List ValuePath} {step : Step} {rest : ValuePath}
    (hfound : ∀ p ∈ paths, ∃ value, d.find? p = some value) (hrest : step :: rest ∈ paths) :
    ∃ child, d.child? step = some child := by
  obtain ⟨value, hvalue⟩ := hfound _ hrest
  rw [find?_cons, Option.bind_eq_some_iff] at hvalue
  obtain ⟨child, hchild, -⟩ := hvalue
  exact ⟨child, hchild⟩

namespace Mirrors

variable {d slot : Document} {paths : List ValuePath}

theorem eq_null (h : Mirrors d [] slot) : slot = null := by
  cases h with
  | blank => rfl
  | whole h => simp at h
  | object h => simp at h
  | array h => simp at h

theorem eq_of_nil_mem (h : Mirrors d paths slot) (hroot : [] ∈ paths) : slot = d := by
  cases h with
  | blank => simp at hroot
  | whole => rfl
  | object _ h => exact absurd hroot h
  | array _ h => exact absurd hroot h

/-- On the way to its paths, a mirror is an object or an array as the document is. -/
theorem object_or_array (h : Mirrors d paths slot) (hpaths : paths ≠ []) (hroot : [] ∉ paths) :
    (∃ members part : Members Document, d = .object members ∧ slot = .object part ∧
        part.keys = nextKeys paths) ∨
      ∃ items part, d = .array items ∧ slot = .array part ∧ part.length = nextLength paths := by
  cases h with
  | blank => exact absurd rfl hpaths
  | whole h => exact absurd h hroot
  | object _ _ hkeys => exact Or.inl ⟨_, _, rfl, rfl, hkeys⟩
  | array _ _ hlength => exact Or.inr ⟨_, _, rfl, rfl, hlength⟩

/-- A step that both the document and its mirror have leads to a mirror again. -/
theorem child {step : Step} {there here : Document} (h : Mirrors d paths slot)
    (hroot : [] ∉ paths) (hthere : d.child? step = some there)
    (hhere : slot.child? step = some here) : Mirrors there (tails step paths) here := by
  cases h with
  | blank => simp at hhere
  | whole h => exact absurd h hroot
  | object _ _ _ hpart =>
    rcases step with name | i <;> simp only [child?, reduceCtorEq] at hthere hhere
    exact hpart name there here hthere hhere
  | array _ _ _ hslots =>
    rcases step with name | i <;> simp only [child?, reduceCtorEq] at hthere hhere
    exact hslots i there here hthere hhere

/-- A mirror has every step that a path begins with. -/
theorem child?_of_tails_ne_nil {step : Step} {there : Document} (h : Mirrors d paths slot)
    (hroot : [] ∉ paths) (hthere : d.child? step = some there) (htails : tails step paths ≠ []) :
    ∃ here, slot.child? step = some here := by
  obtain ⟨rest, hrest⟩ := List.exists_mem_of_ne_nil _ htails
  have hmem := mem_tails.1 hrest
  cases h with
  | blank => simp at hmem
  | whole h => exact absurd h hroot
  | @object members part _ _ _ hkeys _ =>
    rcases step with name | i <;> simp only [child?, reduceCtorEq] at hthere ⊢
    have hname : name ∈ part.keys := hkeys ▸ mem_nextKeys.2 ⟨rest, hmem⟩
    exact Option.isSome_iff_exists.1 (Members.has_iff.2 hname)
  | @array items slots _ _ _ hlength _ =>
    rcases step with name | i <;> simp only [child?, reduceCtorEq] at hthere ⊢
    have hi : i < slots.length := hlength ▸ lt_nextLength_iff.2 ⟨i, rest, le_rfl, hmem⟩
    exact ⟨slots[i], List.getElem?_eq_getElem hi⟩

/-- **At and below a path**, the mirror holds what the document does. -/
theorem find?_of_mem {p : ValuePath} {value : Document} (h : Mirrors d paths slot) (hp : p ∈ paths)
    (hvalue : d.find? p = some value) : slot.find? p = some value := by
  induction p generalizing d paths slot with
  | nil => rw [h.eq_of_nil_mem hp, hvalue]
  | cons step rest ih =>
    by_cases hroot : [] ∈ paths
    · rw [h.eq_of_nil_mem hroot, hvalue]
    · rw [find?_cons, Option.bind_eq_some_iff] at hvalue
      obtain ⟨there, hthere, hrest⟩ := hvalue
      have hmem : rest ∈ tails step paths := mem_tails.2 hp
      obtain ⟨here, hhere⟩ := h.child?_of_tails_ne_nil hroot hthere (List.ne_nil_of_mem hmem)
      rw [find?_cons, hhere, Option.bind_some]
      exact ih (h.child hroot hthere hhere) hmem hrest

/-- **On the way to a path**, the mirror still mirrors the document, along what is left of the
paths that lead on. -/
theorem find?_on_way {q : ValuePath} (h : Mirrors d paths slot)
    (hfound : ∀ p ∈ paths, ∃ value, d.find? p = some value) (habove : ∀ p ∈ paths, ¬p <+: q)
    (hway : tailsAt q paths ≠ []) :
    ∃ there here, d.find? q = some there ∧ slot.find? q = some here ∧
      Mirrors there (tailsAt q paths) here := by
  induction q generalizing d paths slot with
  | nil => exact ⟨d, slot, rfl, rfl, h⟩
  | cons step rest ih =>
    have hroot : [] ∉ paths := fun hmem => habove [] hmem List.nil_prefix
    rw [tailsAt_cons] at hway ⊢
    have htails : tails step paths ≠ [] := by
      intro hnil
      rw [hnil, tailsAt_of_nil] at hway
      exact hway rfl
    obtain ⟨p, hp⟩ := List.exists_mem_of_ne_nil _ htails
    obtain ⟨there, hthere⟩ := child?_of_mem hfound (mem_tails.1 hp)
    obtain ⟨here, hhere⟩ := h.child?_of_tails_ne_nil hroot hthere htails
    obtain ⟨there', here', hthere', hhere', hmirrors⟩ := ih (h.child hroot hthere hhere)
      (find?_of_mem_tails hfound hthere) (not_prefix_of_mem_tails habove) hway
    refine ⟨there', here', ?_, ?_, hmirrors⟩
    · rw [find?_cons, hthere, Option.bind_some, hthere']
    · rw [find?_cons, hhere, Option.bind_some, hhere']

/-- A step of the mirror that no path begins with leads to a `null` in front of an item that
one does. -/
theorem child?_apart {step : Step} {here : Document} (h : Mirrors d paths slot)
    (hfound : ∀ p ∈ paths, ∃ value, d.find? p = some value) (hroot : [] ∉ paths)
    (hhere : slot.child? step = some here) (htails : tails step paths = []) :
    here = null ∧ ∃ i j rest, step = .index i ∧ i < j ∧ .index j :: rest ∈ paths := by
  cases h with
  | blank => simp at hhere
  | whole h => exact absurd h hroot
  | @object members part _ _ _ hkeys _ =>
    rcases step with name | i <;> simp only [child?, reduceCtorEq] at hhere
    have hname : name ∈ nextKeys paths :=
      hkeys ▸ Members.has_iff.1 (Option.isSome_iff_exists.2 ⟨here, hhere⟩)
    obtain ⟨rest, hrest⟩ := mem_nextKeys.1 hname
    exact absurd hrest (tails_eq_nil_iff.1 htails rest)
  | @array items slots _ _ _ hlength hslots =>
    rcases step with name | i <;> simp only [child?, reduceCtorEq] at hhere
    have hi : i < nextLength paths := hlength ▸ (List.getElem?_eq_some_iff.1 hhere).1
    obtain ⟨j, rest, hij, hmem⟩ := lt_nextLength_iff.1 hi
    have hne : i ≠ j := by
      rintro rfl
      exact tails_eq_nil_iff.1 htails rest hmem
    obtain ⟨item, hitem⟩ := child?_of_mem hfound hmem
    have hj : j < items.length := (List.getElem?_eq_some_iff.1 hitem).1
    -- the slot only makes room for the item at `j`
    have hmirrors := hslots i items[i] here (List.getElem?_eq_getElem (by omega)) hhere
    rw [htails] at hmirrors
    exact ⟨hmirrors.eq_null, i, j, rest, rfl, by omega, hmem⟩

/-- **Apart from the paths**, the mirror holds nothing, or `null` in front of an item that a
path leads to. -/
theorem find?_apart {q : ValuePath} {here : Document} (h : Mirrors d paths slot)
    (hfound : ∀ p ∈ paths, ∃ value, d.find? p = some value) (habove : ∀ p ∈ paths, ¬p <+: q)
    (hway : tailsAt q paths = []) (hq : q ≠ []) (hhere : slot.find? q = some here) :
    here = null ∧ ∃ above i j rest, q = index above i ∧ i < j ∧ index above j ++ rest ∈ paths := by
  induction q generalizing d paths slot with
  | nil => exact absurd rfl hq
  | cons step rest ih =>
    have hroot : [] ∉ paths := fun hmem => habove [] hmem List.nil_prefix
    rw [find?_cons, Option.bind_eq_some_iff] at hhere
    obtain ⟨next, hnext, hhere⟩ := hhere
    by_cases htails : tails step paths = []
    · obtain ⟨rfl, i, j, tail, rfl, hij, hmem⟩ := h.child?_apart hfound hroot hnext htails
      rcases rest with _ | ⟨step, rest⟩
      · exact ⟨(Option.some.inj hhere).symm, [], i, j, tail, rfl, hij, hmem⟩
      · simp [find?_cons] at hhere
    · obtain ⟨p, hp⟩ := List.exists_mem_of_ne_nil _ htails
      obtain ⟨there, hthere⟩ := child?_of_mem hfound (mem_tails.1 hp)
      have hrest : rest ≠ [] := by
        rintro rfl
        exact htails hway
      obtain ⟨hnull, above, i, j, tail, rfl, hij, hmem⟩ := ih (h.child hroot hthere hnext)
        (find?_of_mem_tails hfound hthere) (not_prefix_of_mem_tails habove) hway hrest hhere
      exact ⟨hnull, step :: above, i, j, tail, rfl, hij, mem_tails.1 hmem⟩

/-- **What mirrors keep**: a property that is kept by taking a step into a document and by putting
an array or an object together is had by a mirror if the document has it. -/
theorem keeps {P : Document → Prop} (h : Mirrors d paths slot)
    (hfound : ∀ p ∈ paths, ∃ value, d.find? p = some value) (hd : P d) (hnull : P null)
    (hchild : ∀ {d child step}, P d → d.child? step = some child → P child)
    (harray : ∀ items, (∀ item ∈ items, P item) → P (.array items))
    (hobject : ∀ members : Members Document, members.Distinct →
      (∀ member ∈ members, P member.2) → P (.object members)) : P slot := by
  induction h with
  | blank => exact hnull
  | whole => exact hd
  | @object members part paths _ _ hkeys _ ih =>
    have hdistinct : part.Distinct := by
      rw [Members.Distinct, hkeys]
      exact nodup_nextKeys paths
    refine hobject part hdistinct fun member hmember => ?_
    have hname : member.1 ∈ nextKeys paths := hkeys ▸ List.mem_map_of_mem hmember
    obtain ⟨rest, hrest⟩ := mem_nextKeys.1 hname
    obtain ⟨there, hthere⟩ := child?_of_mem hfound hrest
    exact ih member.1 there member.2 hthere (Members.get?_of_mem hdistinct hmember)
      (find?_of_mem_tails hfound hthere) (hchild hd hthere)
  | @array items part paths _ _ hlength _ ih =>
    refine harray part fun item hitem => ?_
    obtain ⟨i, hi⟩ := List.mem_iff_getElem?.1 hitem
    -- some path leads on to an item at this index or after it
    obtain ⟨j, rest, hij, hrest⟩ :=
      lt_nextLength_iff.1 (hlength ▸ (List.getElem?_eq_some_iff.1 hi).1)
    obtain ⟨last, hlast⟩ := child?_of_mem hfound hrest
    have hj : j < items.length := (List.getElem?_eq_some_iff.1 hlast).1
    have hthere : (Document.array items).child? (.index i) = some items[i] :=
      List.getElem?_eq_getElem (by omega)
    exact ih i items[i] item hthere hi (find?_of_mem_tails hfound hthere) (hchild hd hthere)

end Mirrors

/-- **What subsets keep**, of the same properties. -/
theorem subset_keeps {P : Document → Prop} {d : Document} {paths : List ValuePath}
    (hfound : ∀ p ∈ paths, ∃ value, d.find? p = some value) (hd : P d) (hnull : P null)
    (hchild : ∀ {d child step}, P d → d.child? step = some child → P child)
    (harray : ∀ items, (∀ item ∈ items, P item) → P (.array items))
    (hobject : ∀ members : Members Document, members.Distinct →
      (∀ member ∈ members, P member.2) → P (.object members)) : P (d.subset paths) := by
  rcases eq_or_ne paths [] with rfl | hne
  · exact hobject [] List.nodup_nil (by simp)
  · exact (mirrors_subset hne hfound).keeps hfound hd hnull hchild harray hobject

end Document

end ConfigTree
