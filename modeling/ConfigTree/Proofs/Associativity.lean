import ConfigTree.Proofs.Merge

/-!
# Grouping merges

Three trees can be merged in two ways: the third over the merge of the first two, or the merge of
the last two over the first. The two differ where an object of the first is replaced by something
that is not an object in the second, and then an object of the third comes: grouped to the left,
the first object is gone, and grouped to the right, it is merged with the third one. That is an
**interruption** (`ConfigTree.Document.Interrupted`), and it is the only way in which they differ:
without one, both groupings give the same tree, with its values, the order of its members and its
marks (`ConfigTree.Marked.merge_assoc`), and so it is with documents
(`ConfigTree.Document.overlay_assoc`).

Merging works key by key, so the proof does too. What two merges hold under a key is grouped as
the trees are that the three sides hold there (`ConfigTree.Marked.mergeEntries_assoc`), an
interruption below a key is one of the whole (`ConfigTree.Document.Interrupted.cons`), and members
in the same order are equal if lookups agree (`ConfigTree.Members.ext_get?`).
-/

namespace ConfigTree

/-- **Members are known by their keys and their lookups**, if keys are distinct. -/
theorem Members.ext_get? {α : Type} {members members' : Members α} (hdistinct : members.Distinct)
    (hkeys : members.keys = members'.keys)
    (hget : ∀ key, members.get? key = members'.get? key) : members = members' := by
  induction members generalizing members' with
  | nil => exact (List.map_eq_nil_iff.1 hkeys.symm).symm
  | cons member rest ih =>
    obtain ⟨name, a⟩ := member
    obtain ⟨⟨name', b⟩, rest', rfl⟩ := List.exists_cons_of_ne_nil (l := members') (by
      rintro rfl
      simp [keys] at hkeys)
    obtain ⟨hname, hrest⟩ := List.nodup_cons.1 hdistinct
    obtain ⟨rfl, hothers⟩ : name = name' ∧ keys rest = keys rest' := List.cons.inj hkeys
    obtain rfl : a = b := by simpa [get?_cons] using hget name
    refine congrArg _ (ih hrest hothers fun key => ?_)
    by_cases hkey : name = key
    · subst hkey
      rw [get?_eq_none_iff.2 hname, get?_eq_none_iff.2 (hothers ▸ hname)]
    · simpa [get?_cons, hkey] using hget key

namespace Document

/-- **An interruption**: at some path of keys the first and the third document hold an object, and
the second holds something else. -/
def Interrupted (a b c : Document) : Prop :=
  ∃ (p : List String) (first third : Members Document) (between : Document),
    a.find? (p.map .key) = some (.object first) ∧ b.find? (p.map .key) = some between ∧
      c.find? (p.map .key) = some (.object third) ∧ ∀ members, between ≠ .object members

variable {a b c : Document} {first second third : Members Document}

/-- Something else between two objects is an interruption. -/
theorem interrupted_root (h : ∀ members, b ≠ .object members) :
    Interrupted (.object first) b (.object third) :=
  ⟨[], first, third, b, rfl, rfl, rfl, h⟩

theorem find?_object_cons (members : Members Document) (key : String) (rest : ValuePath) :
    (object members).find? (.key key :: rest) = (members.get? key).bind (·.find? rest) := rfl

/-- An interruption below a key is one of the whole. -/
theorem Interrupted.cons (key : String) (h : Interrupted a b c) (ha : first.get? key = some a)
    (hb : second.get? key = some b) (hc : third.get? key = some c) :
    Interrupted (.object first) (.object second) (.object third) := by
  obtain ⟨p, members, members', between, hfirst, hbetween, hthird, hother⟩ := h
  refine ⟨key :: p, members, members', between, ?_, ?_, ?_, hother⟩
  · rwa [List.map_cons, find?_object_cons, ha]
  · rwa [List.map_cons, find?_object_cons, hb]
  · rwa [List.map_cons, find?_object_cons, hc]

/-- A document that comes twice in a row is not interrupted. -/
theorem not_interrupted_left (a b : Document) : ¬Interrupted a a b := by
  rintro ⟨p, first, -, between, hfirst, hbetween, -, hother⟩
  exact hother first (Option.some.inj (hbetween.symm.trans hfirst))

/-- A document that comes twice in a row interrupts nothing. -/
theorem not_interrupted_right (a b : Document) : ¬Interrupted a b b := by
  rintro ⟨p, -, third, between, -, hbetween, hthird, hother⟩
  exact hother third (Option.some.inj (hbetween.symm.trans hthird))

end Document

namespace Marked

/-! ### Trees -/

theorem has_mergeMembers (base layer : Members (Bool × Marked)) (key : String) :
    (mergeMembers base layer).has key = (base.has key || layer.has key) := by
  rw [Members.has, Members.has, Members.has, get?_mergeMembers]
  cases base.get? key <;> cases layer.get? key <;> rfl

/-- The keys of two merges do not depend on how they are grouped. -/
theorem keys_mergeMembers_assoc (a b c : Members (Bool × Marked)) :
    (mergeMembers (mergeMembers a b) c).keys = (mergeMembers a (mergeMembers b c)).keys := by
  simp only [keys_mergeMembers, has_mergeMembers, List.filter_append, List.filter_filter,
    Bool.not_or, List.append_assoc]

/-- Merges of entries are grouped as those of their trees are. -/
theorem mergeEntries_assoc {a b c : Option (Bool × Marked)}
    (h : ∀ x ∈ a, ∀ y ∈ b, ∀ z ∈ c, (x.2.merge y.2).merge z.2 = x.2.merge (y.2.merge z.2)) :
    mergeEntries (mergeEntries a b) c = mergeEntries a (mergeEntries b c) := by
  rcases a with _ | x
  · rw [mergeEntries_none_left, mergeEntries_none_left]
  rcases b with _ | y
  · rw [mergeEntries_none_left, mergeEntries_none_right]
  rcases c with _ | z
  · rw [mergeEntries_none_right, mergeEntries_none_right]
  · exact congrArg some (Prod.ext (Bool.or_assoc _ _ _) (h x rfl y rfl z rfl))

/-- **Grouping merges**: without an interruption, it makes no difference. -/
theorem merge_assoc {a b c : Marked} (ha : a.Distinct) (hb : b.Distinct) (hc : c.Distinct)
    (h : ¬Document.Interrupted a.plain b.plain c.plain) :
    (a.merge b).merge c = a.merge (b.merge c) := by
  induction a using Marked.induction generalizing b c with
  | scalar s => rw [scalar_merge, scalar_merge]
  | array items => rw [array_merge, array_merge]
  | object first ih =>
    rcases c with s | items | third
    · rw [merge_scalar, merge_scalar, merge_scalar]
    · rw [merge_array, merge_array, merge_array]
    rw [plain_object, plain_object] at h
    rcases b with s | items | second
    · exact absurd (Document.interrupted_root (by simp [plain])) h
    · exact absurd (Document.interrupted_root (by simp [plain])) h
    rw [plain_object] at h
    rw [distinct_object_iff] at ha hb hc
    simp only [merge_object]
    refine congrArg _ (Members.ext_get? ?_ (keys_mergeMembers_assoc first second third) ?_)
    · exact distinct_mergeMembers (distinct_mergeMembers ha.1 hb.1) hc.1
    intro key
    simp only [get?_mergeMembers]
    refine mergeEntries_assoc fun x hx y hy z hz => ?_
    refine ih (key, x) (Members.mem_of_get? hx) (ha.2 key x hx) (hb.2 key y hy) (hc.2 key z hz) ?_
    refine fun hbelow => h (hbelow.cons key ?_ ?_ ?_)
    · rw [get?_plainMembers, hx, Option.map_some]
    · rw [get?_plainMembers, hy, Option.map_some]
    · rw [get?_plainMembers, hz, Option.map_some]

/-! ### Documents -/

theorem keys_ofMembers (members : Members Document) :
    Members.keys (ofMembers members) = members.keys := by
  rw [← keys_plainMembers, plainMembers_ofMembers]

mutual

/-- Marking nothing repeats no key. -/
theorem distinct_ofDocument : ∀ d : Document, d.Distinct → (ofDocument d).Distinct
  | .scalar s => fun _ => by rw [ofDocument]; trivial
  | .array items => fun h => by
    rw [ofDocument]
    exact distinctItems_ofItems items h
  | .object members => fun h => by
    rw [ofDocument, Distinct, Members.Distinct, keys_ofMembers]
    exact ⟨h.1, distinctMembers_ofMembers members h.2⟩

theorem distinctItems_ofItems : ∀ items : List Document,
    Document.DistinctItems items → DistinctItems (ofItems items)
  | [] => fun _ => by rw [ofItems]; trivial
  | item :: rest => fun h => by
    rw [ofItems]
    exact ⟨distinct_ofDocument item h.1, distinctItems_ofItems rest h.2⟩

theorem distinctMembers_ofMembers : ∀ members : Members Document,
    Document.DistinctMembers members → DistinctMembers (ofMembers members)
  | [] => fun _ => by rw [ofMembers]; trivial
  | (key, value) :: rest => fun h => by
    rw [ofMembers]
    exact ⟨distinct_ofDocument value h.1, distinctMembers_ofMembers rest h.2⟩

end

end Marked

/-- **Grouping merges of documents** makes no difference without an interruption. -/
theorem Document.overlay_assoc {a b c : Document} (ha : a.Distinct) (hb : b.Distinct)
    (hc : c.Distinct) (h : ¬Interrupted a b c) :
    (a.overlay b).overlay c = a.overlay (b.overlay c) := by
  have htrees := Marked.merge_assoc (Marked.distinct_ofDocument a ha)
    (Marked.distinct_ofDocument b hb) (Marked.distinct_ofDocument c hc)
    (by simpa only [Marked.plain_ofDocument] using h)
  have hplain := congrArg Marked.plain htrees
  simp only [Marked.plain_merge, Marked.plain_ofDocument] at hplain
  simp only [overlay_eq_merge, hplain]

/-- **Merging is associative** where nothing is interrupted, of trees with their marks and of
documents. -/
theorem merges_associate :
    (∀ a b c : Marked, a.Distinct → b.Distinct → c.Distinct →
      ¬Document.Interrupted a.plain b.plain c.plain →
        (a.merge b).merge c = a.merge (b.merge c)) ∧
    ∀ a b c : Document, a.Distinct → b.Distinct → c.Distinct → ¬Document.Interrupted a b c →
      (a.overlay b).overlay c = a.overlay (b.overlay c) :=
  ⟨fun _ _ _ => Marked.merge_assoc, fun _ _ _ => Document.overlay_assoc⟩

/-- Under one key three objects are merged, and under the other one an object replaces a scalar. -/
theorem merges_associate_at_two_keys :
    ∃ a b c : Marked, a.Distinct ∧ b.Distinct ∧ c.Distinct ∧
      ¬Document.Interrupted a.plain b.plain c.plain ∧
      (a.merge b).merge c = a.merge (b.merge c) ∧
      (a.plain.overlay b.plain).overlay c.plain = a.plain.overlay (b.plain.overlay c.plain) := by
  let a : Marked := .object [("k", true, .object [("x", false, .scalar .null)])]
  let b : Marked := .object [("l", false, .scalar (.bool true)),
    ("k", false, .object [("y", false, .scalar .null)])]
  let c : Marked := .object [("k", false, .object [("x", true, .array [])]), ("l", false, .object [])]
  have ha : a.Distinct := by simp [a, Marked.Distinct, Marked.DistinctMembers, Members.Distinct,
    Members.keys]
  have hb : b.Distinct := by simp [b, Marked.Distinct, Marked.DistinctMembers, Members.Distinct,
    Members.keys]
  have hc : c.Distinct := by simp [c, Marked.Distinct, Marked.DistinctItems, Marked.DistinctMembers,
    Members.Distinct, Members.keys]
  have h : ¬Document.Interrupted a.plain b.plain c.plain := by
    rintro ⟨_ | ⟨key, rest⟩, first, third, between, hfirst, hbetween, -, hother⟩
    · exact hother _ (Option.some.inj hbetween).symm
    obtain rfl : key = "k" := by
      by_contra hkey
      simp [a, Marked.plain, Marked.plainMembers, Document.find?_object_cons, Members.get?_cons,
        Ne.symm hkey] at hfirst
    rcases rest with _ | ⟨key, rest⟩
    · exact hother _ (Option.some.inj hbetween).symm
    · by_cases hkey : "x" = key <;> cases rest <;>
        simp [a, Marked.plain, Marked.plainMembers, Document.find?_cons, Document.child?,
          Members.get?_cons, hkey] at hfirst
  exact ⟨a, b, c, ha, hb, hc, h, merges_associate.1 a b c ha hb hc h,
    merges_associate.2 _ _ _ ha.plain hb.plain hc.plain h⟩

/-- Where a scalar comes between two objects, the grouping shows. -/
example :
    ((Document.object [("k", .null)]).overlay .null).overlay (.object []) ≠
      (Document.object [("k", .null)]).overlay (Document.null.overlay (.object [])) := by
  decide

end ConfigTree
