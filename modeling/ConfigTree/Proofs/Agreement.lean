import ConfigTree.Proofs.Merge
import ConfigTree.Proofs.PublicSubset

/-!
# Trees that agree on what is public

Two trees with the same plain document may differ in their marks. What is public in a tree is
decided by its outermost marks only, so two entries **agree** when their own marks are related
and, unless the second one is marked, so are the entries one step below
(`ConfigTree.Marked.Agree`). Below a marked member nothing is asked.

As marks are combined by disjunction, merging keeps agreement (`ConfigTree.Marked.Agree.merge`).
With the order of truth values as the relation, whatever is covered in the first tree is covered in
the second one (`ConfigTree.Marked.Agree.covered`). With equality, both have the same places of
outermost marks (`ConfigTree.Marked.Agree.publicPaths_eq`).
-/

namespace ConfigTree

namespace Marked

/-- **A relation of marks** that merging keeps. -/
structure OrClosed (R : Bool → Bool → Prop) : Prop where
  refl : ∀ b, R b b
  or : ∀ {a a' b b'}, R a a' → R b b' → R (a || b) (a' || b')

theorem orClosed_le : OrClosed (· ≤ ·) where
  refl _ := le_rfl
  or := sup_le_sup

theorem orClosed_eq : OrClosed (· = ·) where
  refl _ := rfl
  or h h' := congrArg₂ or h h'

variable {R : Bool → Bool → Prop}

/-- **Agreement**: the marks are related, and so are those below, until one of the second entry
hides them. -/
inductive Agree (R : Bool → Bool → Prop) : Bool × Marked → Bool × Marked → Prop
  | intro {entry entry' : Bool × Marked} : R entry.1 entry'.1 →
      (entry'.1 = false → ∀ step next next', entry.2.child? step = some next →
        entry'.2.child? step = some next' → Agree R next next') → Agree R entry entry'

theorem Agree.mark {entry entry' : Bool × Marked} (h : Agree R entry entry') :
    R entry.1 entry'.1 := by
  cases h
  assumption

theorem Agree.child {entry entry' next next' : Bool × Marked} {step : Step}
    (h : Agree R entry entry') (hmark : entry'.1 = false) (hnext : entry.2.child? step = some next)
    (hnext' : entry'.2.child? step = some next') : Agree R next next' := by
  cases h with
  | intro _ hbelow => exact hbelow hmark step next next' hnext hnext'

/-- A mark that is related may be put on both entries, if what is below them agrees. -/
theorem Agree.withMarks {marked marked' : Bool} {node node' : Marked}
    (h : Agree R (false, node) (false, node')) (hmark : R marked marked') :
    Agree R (marked, node) (marked', node') :=
  .intro hmark fun _ _ _ _ hnext hnext' => h.child rfl hnext hnext'

/-! ### Trees with the same plain document -/

/-- A step leads on in both of two trees with the same plain document, or in neither. -/
theorem child?_of_plain_eq {t t' : Marked} (h : t.plain = t'.plain) (step : Step) :
    t.child? step = none ∧ t'.child? step = none ∨
      ∃ next next', t.child? step = some next ∧ t'.child? step = some next' ∧
        next.2.plain = next'.2.plain := by
  have hmap : (t.child? step).map (·.2.plain) = (t'.child? step).map (·.2.plain) := by
    rw [← child?_plain, ← child?_plain, h]
  rcases hnext : t.child? step with _ | next <;> rcases hnext' : t'.child? step with _ | next' <;>
    simp only [hnext, hnext', Option.map_none, Option.map_some, reduceCtorEq, Option.some.injEq]
      at hmap
  · exact Or.inl ⟨rfl, rfl⟩
  · exact Or.inr ⟨next, next', rfl, rfl, hmap⟩

/-- The plain document decides whether a tree is an object. -/
theorem exists_object_of_plain_eq {members : Members (Bool × Marked)} {t : Marked}
    (h : t.plain = (object members).plain) : ∃ members', t = .object members' := by
  rcases t with s | items | members'
  · simp [plain] at h
  · simp [plain] at h
  · exact ⟨members', rfl⟩

theorem merge_eq_right_of_plain_eq {base base' layer layer' : Marked}
    (hbase : base.plain = base'.plain) (hlayer : layer.plain = layer'.plain)
    (h : ¬∃ b l, base = .object b ∧ layer = .object l) :
    base.merge layer = layer ∧ base'.merge layer' = layer' := by
  refine ⟨merge_of_not_object fun b l hb hl => h ⟨b, l, hb, hl⟩,
    merge_of_not_object fun b' l' hb' hl' => h ?_⟩
  subst hb' hl'
  obtain ⟨b, rfl⟩ := exists_object_of_plain_eq hbase
  obtain ⟨l, rfl⟩ := exists_object_of_plain_eq hlayer
  exact ⟨b, l, rfl, rfl⟩

/-- Two objects are merged step by step. -/
theorem child?_merge_object (base layer : Members (Bool × Marked)) (step : Step) :
    ((object base).merge (.object layer)).child? step =
      mergeEntries ((object base).child? step) ((object layer).child? step) := by
  rw [merge_object]
  rcases step with name | i
  · exact get?_mergeMembers base layer name
  · rfl

/-- **Merging keeps agreement** of trees with the same plain documents. -/
theorem Agree.merge (hR : OrClosed R) {base base' layer layer' : Bool × Marked}
    (hbase : Agree R base base') (hlayer : Agree R layer layer')
    (hplain : base.2.plain = base'.2.plain) (hplain' : layer.2.plain = layer'.2.plain) :
    Agree R (mergeEntry base layer) (mergeEntry base' layer') := by
  induction hbase generalizing layer layer' with
  | @intro base base' hmark hbelow ih =>
    refine .intro (hR.or hmark hlayer.mark) fun hmarks step next next' hnext hnext' => ?_
    obtain ⟨hunmarked, hunmarked'⟩ := Bool.or_eq_false_iff.1 hmarks
    by_cases hobjects : ∃ b l, base.2 = .object b ∧ layer.2 = .object l
    · obtain ⟨b, l, hb, hl⟩ := hobjects
      obtain ⟨b', hb'⟩ := exists_object_of_plain_eq (hplain.symm.trans (congrArg plain hb))
      obtain ⟨l', hl'⟩ := exists_object_of_plain_eq (hplain'.symm.trans (congrArg plain hl))
      rw [mergeEntry, hb, hl, child?_merge_object, ← hb, ← hl] at hnext
      rw [mergeEntry, hb', hl', child?_merge_object, ← hb', ← hl'] at hnext'
      -- the entry of one side alone agrees there, and two entries are merged again
      rcases child?_of_plain_eq hplain step with ⟨hf, hf'⟩ | ⟨f, f', hf, hf', heq⟩ <;>
        rcases child?_of_plain_eq hplain' step with ⟨hg, hg'⟩ | ⟨g, g', hg, hg', heq'⟩ <;>
        rw [hf, hg] at hnext <;> rw [hf', hg'] at hnext'
      · cases hnext
      · obtain rfl := Option.some.inj hnext
        obtain rfl := Option.some.inj hnext'
        exact hlayer.child hunmarked' hg hg'
      · obtain rfl := Option.some.inj hnext
        obtain rfl := Option.some.inj hnext'
        exact hbelow hunmarked step f f' hf hf'
      · obtain rfl := Option.some.inj hnext
        obtain rfl := Option.some.inj hnext'
        exact ih hunmarked step f f' hf hf' (hlayer.child hunmarked' hg hg') heq heq'
    · obtain ⟨hmerge, hmerge'⟩ := merge_eq_right_of_plain_eq hplain hplain' hobjects
      rw [mergeEntry, hmerge] at hnext
      rw [mergeEntry, hmerge'] at hnext'
      exact hlayer.child hunmarked' hnext hnext'

/-! ### Agreement from part to whole -/

theorem agree_scalar (hR : OrClosed R) (s : Scalar) :
    Agree R (false, .scalar s) (false, .scalar s) :=
  .intro (hR.refl false) fun _ step _ _ hnext => by simp at hnext

theorem agree_array (hR : OrClosed R) {items items' : List Marked}
    (h : List.Forall₂ (fun item item' => Agree R (false, item) (false, item')) items items') :
    Agree R (false, .array items) (false, .array items') := by
  refine .intro (hR.refl false) fun _ step next next' hnext hnext' => ?_
  rcases step with name | i
  · cases hnext
  · obtain ⟨item, hitem, rfl⟩ := Option.map_eq_some_iff.1 hnext
    obtain ⟨item', hitem', rfl⟩ := Option.map_eq_some_iff.1 hnext'
    obtain ⟨hi, rfl⟩ := List.getElem?_eq_some_iff.1 hitem
    obtain ⟨hi', rfl⟩ := List.getElem?_eq_some_iff.1 hitem'
    exact (List.forall₂_iff_get.1 h).2 i hi hi'

/-- Members with one key that agree. -/
def AgreeMember (R : Bool → Bool → Prop) (member member' : String × Bool × Marked) : Prop :=
  member.1 = member'.1 ∧ Agree R member.2 member'.2

theorem agree_of_get? {members members' : Members (Bool × Marked)} {name : String}
    {entry entry' : Bool × Marked} (h : List.Forall₂ (AgreeMember R) members members')
    (hentry : members.get? name = some entry) (hentry' : members'.get? name = some entry') :
    Agree R entry entry' := by
  induction h with
  | nil => cases hentry
  | @cons member member' _ _ hmember _ ih =>
    obtain ⟨key, first⟩ := member
    obtain ⟨key', first'⟩ := member'
    obtain ⟨hkey, hfirst⟩ := hmember
    dsimp only at hkey hfirst
    subst hkey
    rw [Members.get?_cons] at hentry hentry'
    by_cases hname : key = name
    · rw [if_pos hname] at hentry hentry'
      exact Option.some.inj hentry ▸ Option.some.inj hentry' ▸ hfirst
    · rw [if_neg hname] at hentry hentry'
      exact ih hentry hentry'

theorem agree_object (hR : OrClosed R) {members members' : Members (Bool × Marked)}
    (h : List.Forall₂ (AgreeMember R) members members') :
    Agree R (false, .object members) (false, .object members') := by
  refine .intro (hR.refl false) fun _ step next next' hnext hnext' => ?_
  rcases step with name | i
  · exact agree_of_get? h hnext hnext'
  · cases hnext

/-! ### Resemblance -/

/-- **Resemblance**: two trees have the same plain document, and under a condition they agree on
what is public. -/
structure Resembles (R : Bool → Bool → Prop) (same : Prop) (t t' : Marked) : Prop where
  plain_eq : t.plain = t'.plain
  agree : same → Agree R (false, t) (false, t')

/-- Members with one key whose trees have the same plain document, and which under a condition agree
on what is public. -/
structure ResemblesMember (R : Bool → Bool → Prop) (same : Prop)
    (member member' : String × Bool × Marked) : Prop where
  key_eq : member.1 = member'.1
  plain_eq : member.2.2.plain = member'.2.2.plain
  agree : same → Agree R member.2 member'.2

variable {same : Prop}

theorem Resembles.imp {other : Prop} {t t' : Marked} (h : Resembles R same t t')
    (himp : other → same) : Resembles R other t t' :=
  ⟨h.plain_eq, fun hother => h.agree (himp hother)⟩

theorem resembles_scalar (hR : OrClosed R) (s : Scalar) :
    Resembles R same (.scalar s) (.scalar s) :=
  ⟨rfl, fun _ => agree_scalar hR s⟩

theorem resembles_array (hR : OrClosed R) {items items' : List Marked}
    (h : List.Forall₂ (Resembles R same) items items') :
    Resembles R same (.array items) (.array items') where
  plain_eq := by
    rw [plain, plain, plainItems_eq_map, plainItems_eq_map, Document.array.injEq,
      ← List.forall₂_eq_eq_eq, List.forall₂_map_left_iff, List.forall₂_map_right_iff]
    exact h.imp fun _ _ hitem => hitem.plain_eq
  agree hsame := agree_array hR (h.imp fun _ _ hitem => hitem.agree hsame)

theorem resembles_object (hR : OrClosed R) {members members' : Members (Bool × Marked)}
    (h : List.Forall₂ (ResemblesMember R same) members members') :
    Resembles R same (.object members) (.object members') where
  plain_eq := by
    rw [plain, plain, plainMembers_eq_map, plainMembers_eq_map, Document.object.injEq,
      ← List.forall₂_eq_eq_eq, List.forall₂_map_left_iff, List.forall₂_map_right_iff]
    exact h.imp fun _ _ hmember => Prod.ext hmember.key_eq hmember.plain_eq
  agree hsame := agree_object hR (h.imp fun _ _ hmember => ⟨hmember.key_eq, hmember.agree hsame⟩)

/-- **Merging keeps resemblance.** -/
theorem resembles_mergeMembers (hR : OrClosed R)
    {base base' layer layer' : Members (Bool × Marked)}
    (hbase : Resembles R same (.object base) (.object base'))
    (hlayer : Resembles R same (.object layer) (.object layer')) :
    Resembles R same (.object (mergeMembers base layer)) (.object (mergeMembers base' layer')) where
  plain_eq := by rw [plain_mergeMembers, plain_mergeMembers, hbase.plain_eq, hlayer.plain_eq]
  agree hsame := by
    rw [← mergeEntry_object, ← mergeEntry_object]
    exact (hbase.agree hsame).merge hR (hlayer.agree hsame) hbase.plain_eq hlayer.plain_eq

theorem resembles_foldl (hR : OrClosed R) {trees trees' : List (Members (Bool × Marked))}
    {merged merged' : Members (Bool × Marked)}
    (h : List.Forall₂ (fun tree tree' => Resembles R same (.object tree) (.object tree')) trees
      trees')
    (hmerged : Resembles R same (.object merged) (.object merged')) :
    Resembles R same (.object (trees.foldl mergeMembers merged))
      (.object (trees'.foldl mergeMembers merged')) := by
  induction h generalizing merged merged' with
  | nil => exact hmerged
  | cons htree _ ih => exact ih (resembles_mergeMembers hR hmerged htree)

/-! ### What agreement says of the places of marks -/

/-- **A mark is not lost**: at it or above it there is one in the second tree. -/
theorem Agree.exists_markedAt {entry entry' : Bool × Marked} {p : ValuePath}
    (h : Agree (· ≤ ·) entry entry') (hplain : entry.2.plain = entry'.2.plain)
    (hp : MarkedAt entry p) : ∃ q, q <+: p ∧ MarkedAt entry' q := by
  induction p generalizing entry entry' with
  | nil =>
    obtain ⟨node, hnode⟩ := hp
    obtain rfl := Option.some.inj hnode
    have hmark : entry'.1 = true := top_le_iff.1 h.mark
    exact ⟨[], List.nil_prefix, entry'.2, congrArg some (Prod.ext hmark rfl)⟩
  | cons step rest ih =>
    obtain ⟨next, hnext, hrest⟩ := markedAt_cons_iff.1 hp
    rcases hmark : entry'.1 with _ | _
    · rcases child?_of_plain_eq hplain step with ⟨hnone, -⟩ | ⟨_, next', hnext₁, hnext', heq⟩
      · cases hnone.symm.trans hnext
      · obtain rfl := Option.some.inj (hnext₁.symm.trans hnext)
        obtain ⟨q, hq, hmarked⟩ := ih (h.child hmark hnext hnext') heq hrest
        exact ⟨step :: q, List.cons_prefix_cons.2 ⟨rfl, hq⟩,
          markedAt_cons_iff.2 ⟨next', hnext', hmarked⟩⟩
    · exact ⟨[], List.nil_prefix, entry'.2, congrArg some (Prod.ext hmark rfl)⟩

/-- **What is covered stays covered** where marks are only added. -/
theorem Agree.covered {t t' : Marked} (h : Agree (· ≤ ·) (false, t) (false, t'))
    (hplain : t.plain = t'.plain) (ht : t.Distinct) (ht' : t'.Distinct) {q : ValuePath}
    (hq : ValuePath.Covered t.publicPaths q) : ValuePath.Covered t'.publicPaths q := by
  obtain ⟨p, hp, hpre⟩ := hq
  obtain ⟨p', hpre', hmarked⟩ := h.exists_markedAt hplain (markedAt_of_mem_publicPaths ht hp)
  obtain ⟨p'', hp'', hpre''⟩ := exists_mem_publicPaths_of_markedAt ht' hmarked
  exact ⟨p'', hp'', (hpre''.trans hpre').trans hpre⟩

theorem itemPaths_congr {items items' : List Marked} (i : Nat)
    (h : List.Forall₂ (fun item item' => item.publicPaths = item'.publicPaths) items items') :
    itemPaths i items = itemPaths i items' := by
  induction h generalizing i with
  | nil => rfl
  | cons hitem _ ih => rw [itemPaths, itemPaths, hitem, ih]

theorem memberPaths_congr {members members' : Members (Bool × Marked)}
    (h : List.Forall₂ (fun member member' => member.1 = member'.1 ∧
      entryPaths member.2 = entryPaths member'.2) members members') :
    memberPaths members = memberPaths members' := by
  induction h with
  | nil => rfl
  | @cons member member' _ _ hmember _ ih =>
    obtain ⟨key, entry⟩ := member
    obtain ⟨key', entry'⟩ := member'
    obtain ⟨hkey, hentry⟩ := hmember
    dsimp only at hkey hentry
    subst hkey
    rw [memberPaths_cons, memberPaths_cons, hentry, ih]

/-- Entries that agree on every mark have the same places, if their trees have. -/
theorem Agree.entryPaths_eq {entry entry' : Bool × Marked} (h : Agree (· = ·) entry entry')
    (hpaths : Agree (· = ·) (false, entry.2) (false, entry'.2) →
      entry.2.publicPaths = entry'.2.publicPaths) : entryPaths entry = entryPaths entry' := by
  obtain ⟨marked, node⟩ := entry
  obtain ⟨marked', node'⟩ := entry'
  obtain rfl : marked = marked' := h.mark
  cases marked with
  | true => rfl
  | false => exact hpaths h

/-- **Trees that agree on every mark** have the same places of outermost marks. -/
theorem Agree.publicPaths_eq {t t' : Marked} (h : Agree (· = ·) (false, t) (false, t'))
    (hplain : t.plain = t'.plain) (ht : t.Distinct) (ht' : t'.Distinct) :
    t.publicPaths = t'.publicPaths := by
  induction t using Marked.induction generalizing t' with
  | scalar s =>
    rcases t' with s' | items' | members' <;> simp only [plain, reduceCtorEq] at hplain
    rw [publicPaths, publicPaths]
  | array items ih =>
    rcases t' with s' | items' | members' <;> simp only [plain, reduceCtorEq] at hplain
    rw [Document.array.injEq, plainItems_eq_map, plainItems_eq_map, ← List.forall₂_eq_eq_eq,
      List.forall₂_map_left_iff, List.forall₂_map_right_iff, List.forall₂_iff_get] at hplain
    rw [Distinct, distinctItems_iff] at ht ht'
    rw [publicPaths, publicPaths]
    refine itemPaths_congr 0 (List.forall₂_iff_get.2 ⟨hplain.1, fun i hi hi' => ?_⟩)
    have hitem : child? (.array items) (.index i) = some (false, items[i]) := by simp [child?, hi]
    have hitem' : child? (.array items') (.index i) = some (false, items'[i]) := by
      simp [child?, hi']
    exact ih items[i] (List.getElem_mem hi) (h.child rfl hitem hitem') (hplain.2 i hi hi')
      (ht _ (List.getElem_mem hi)) (ht' _ (List.getElem_mem hi'))
  | object members ih =>
    rcases t' with s' | items' | members' <;> simp only [plain, reduceCtorEq] at hplain
    rw [Document.object.injEq, plainMembers_eq_map, plainMembers_eq_map, ← List.forall₂_eq_eq_eq,
      List.forall₂_map_left_iff, List.forall₂_map_right_iff, List.forall₂_iff_zip] at hplain
    rw [Distinct, distinctMembers_iff] at ht ht'
    rw [publicPaths, publicPaths]
    refine memberPaths_congr (List.forall₂_iff_zip.2 ⟨hplain.1, fun {member member'} hmem => ?_⟩)
    obtain ⟨hmember, hmember'⟩ := List.of_mem_zip hmem
    obtain ⟨hkey, heq⟩ := Prod.mk.inj (hplain.2 hmem)
    have hentry : child? (.object members) (.key member.1) = some member.2 :=
      Members.get?_of_mem ht.1 hmember
    have hentry' : child? (.object members') (.key member.1) = some member'.2 :=
      hkey ▸ Members.get?_of_mem ht'.1 hmember'
    have hagree : Agree (· = ·) member.2 member'.2 := h.child rfl hentry hentry'
    exact ⟨hkey, hagree.entryPaths_eq fun hunmarked =>
      ih member hmember hunmarked heq (ht.2 _ hmember) (ht'.2 _ hmember')⟩

end Marked

end ConfigTree
