import ConfigTree.Proofs.Agreement
import ConfigTree.Proofs.Visits
import ConfigTree.Proofs.Walk

/-!
# Writing documents in another way

Files may be written in another way without a change of what a load makes of them: members get
other keys for the same names, or the members of a public block stand in its object, with marks.
What such a respelling has to satisfy is said of one document at a time
(`ConfigTree.Respelling`): an object keeps its include member, and either all its members are
respelled one by one or its block is written into it (`ConfigTree.InlinedBlock`).

Either way the members keep their names, in the order in which they are expanded
(`ConfigTree.SameName`), and the walk of an object comes to the same files as that of its respelling
when the walks of its parts do (`ConfigTree.Source.sameWalk_object`,
`ConfigTree.Source.sameWalk_inlined`).
-/

namespace ConfigTree

/-! ### Respelled members -/

/-- Members that are respelled one by one: the include member is kept, another one has a related key
and a related value. -/
inductive RespelledMember (K : String → String → Prop) (D : Document → Document → Prop) :
    String × Document → String × Document → Prop
  | included (value : Document) :
      RespelledMember K D (Directive.includeKey, value) (Directive.includeKey, value)
  | other {key key' : String} {value value' : Document} : key ≠ Directive.includeKey →
      K key key' → D value value' → RespelledMember K D (key, value) (key', value')

theorem RespelledMember.refl {K : String → String → Prop} {D : Document → Document → Prop}
    {member : String × Document} (hkey : K member.1 member.1) (hvalue : D member.2 member.2) :
    RespelledMember K D member member := by
  obtain ⟨key, value⟩ := member
  by_cases h : key = Directive.includeKey
  · rw [h]
    exact .included value
  · exact .other h hkey hvalue

/-- A key with a mark, and the same key if it has one: how a member of a public block is written
outside it. -/
def Directive.WritesMark (key key' : String) : Prop :=
  key ≠ "" ∧ ((∃ stem, IsMarkedAs key stem) ∧ key' = key ∨
    (¬∃ stem, IsMarkedAs key stem) ∧ key' = key ++ publicKey)

/-- **A public block is written into its object**: the block has no directives of its own and no
name in common with the other members, before which its members are put, with marks. -/
inductive InlinedBlock (D : Document → Document → Prop) : Document → Document → Prop
  | intro {members members' block inside own : Members Document} :
      members.get? Directive.publicKey = some (.object block) →
      block.get? Directive.includeKey = none → block.get? Directive.publicKey = none →
      (∀ member ∈ block, ∀ other ∈ Directive.ordinary members,
        ¬∃ name, Directive.IsName member.1 name ∧ Directive.IsName other.1 name) →
      members'.get? Directive.includeKey = members.get? Directive.includeKey →
      members'.get? Directive.publicKey = none →
      Directive.ordinary members' = inside ++ own →
      List.Forall₂ (RespelledMember Directive.WritesMark D) block inside →
      List.Forall₂ (RespelledMember (· = ·) D) (Directive.ordinary members) own →
      InlinedBlock D (.object members) (.object members')

/-- **Respelled keys** have the same names, and directives stay what they are. -/
structure KeyRespelling (R : Bool → Bool → Prop) (K : String → String → Prop) : Prop where
  name_eq : ∀ {key key'}, K key key' → Directive.name key' = Directive.name key
  mark : ∀ {key key'}, K key key' → R (Directive.isMarked key) (Directive.isMarked key')
  include_of_eq : ∀ {key key'}, K key key' → key' = Directive.includeKey →
    key = Directive.includeKey
  public_iff : ∀ {key key'}, K key key' → (key' = Directive.publicKey ↔ key = Directive.publicKey)

/-- **Respellings** of documents: scalars stay what they are, arrays are respelled item by item,
objects member by member or by writing a block into them. -/
structure Respelling (R : Bool → Bool → Prop) (K : String → String → Prop)
    (D : Document → Document → Prop) : Prop where
  closed : Marked.OrClosed R
  keys : KeyRespelling R K
  scalar : ∀ {s d'}, D (.scalar s) d' → d' = .scalar s
  array : ∀ {items d'}, D (.array items) d' →
    ∃ items', d' = .array items' ∧ List.Forall₂ D items items'
  object : ∀ {members d'}, D (.object members) d' → ∃ members', d' = .object members' ∧
    (List.Forall₂ (RespelledMember K D) members members' ∨
      InlinedBlock D (.object members) (.object members'))

variable {R : Bool → Bool → Prop} {K : String → String → Prop} {D : Document → Document → Prop}
  {members members' : Members Document}

theorem keyRespelling_eq (hR : Marked.OrClosed R) : KeyRespelling R (· = ·) where
  name_eq h := congrArg Directive.name h.symm
  mark h := h ▸ hR.refl _
  include_of_eq h := h.trans
  public_iff h := by rw [h]

section Members

variable (hK : KeyRespelling R K) (h : List.Forall₂ (RespelledMember K D) members members')

include hK h

theorem get?_include_of_respelled :
    members'.get? Directive.includeKey = members.get? Directive.includeKey := by
  induction h with
  | nil => rfl
  | cons hmember _ ih =>
    cases hmember with
    | included value => rw [Members.get?_cons, Members.get?_cons, if_pos rfl, if_pos rfl]
    | other hkey hrel _ =>
      have hkey' := mt (hK.include_of_eq hrel) hkey
      rw [Members.get?_cons, Members.get?_cons, if_neg hkey, if_neg hkey', ih]

/-- The public block is respelled, if there is one. -/
theorem get?_public_of_respelled :
    members.get? Directive.publicKey = none ∧ members'.get? Directive.publicKey = none ∨
      ∃ d d', members.get? Directive.publicKey = some d ∧
        members'.get? Directive.publicKey = some d' ∧ D d d' := by
  induction h with
  | nil => exact Or.inl ⟨rfl, rfl⟩
  | cons hmember _ ih =>
    cases hmember with
    | included value =>
      have hkey : Directive.includeKey ≠ Directive.publicKey := by decide
      rwa [Members.get?_cons, Members.get?_cons, if_neg hkey, if_neg hkey]
    | @other key key' value value' _ hrel hvalue =>
      rw [Members.get?_cons, Members.get?_cons]
      by_cases hkey : key = Directive.publicKey
      · rw [if_pos hkey, if_pos ((hK.public_iff hrel).2 hkey)]
        exact Or.inr ⟨value, value', rfl, rfl, hvalue⟩
      · rw [if_neg hkey, if_neg (mt (hK.public_iff hrel).1 hkey)]
        exact ih

theorem ordinary_of_respelled :
    List.Forall₂ (RespelledMember K D) (Directive.ordinary members)
      (Directive.ordinary members') := by
  induction h with
  | nil => exact .nil
  | cons hmember _ ih =>
    cases hmember with
    | included value => rwa [Directive.ordinary_cons_directive (Or.inl rfl),
        Directive.ordinary_cons_directive (Or.inl rfl)]
    | @other key key' value value' hkey hrel hvalue =>
      have hkey' := mt (hK.include_of_eq hrel) hkey
      by_cases hpublic : key = Directive.publicKey
      · rwa [Directive.ordinary_cons_directive (Or.inr hpublic),
          Directive.ordinary_cons_directive (Or.inr ((hK.public_iff hrel).2 hpublic))]
      · rw [Directive.ordinary_cons hkey hpublic,
          Directive.ordinary_cons hkey' (mt (hK.public_iff hrel).1 hpublic)]
        exact .cons (.other hkey hrel hvalue) ih

end Members

/-- Members of one name with related marks and related values. -/
structure SameName (M : Bool → Bool → Prop) (D : Document → Document → Prop)
    (member member' : String × Document) : Prop where
  name_eq : Directive.name member'.1 = Directive.name member.1
  mark : M (Directive.isMarked member.1) (Directive.isMarked member'.1)
  value : D member.2 member'.2

/-- Respelled members that are no include members have the same names. -/
theorem sameName_of_respelled {M : Bool → Bool → Prop}
    (hK : ∀ {key key'}, K key key' → Directive.name key' = Directive.name key ∧
      M (Directive.isMarked key) (Directive.isMarked key'))
    (hkeys : ∀ member ∈ members, member.1 ≠ Directive.includeKey)
    (h : List.Forall₂ (RespelledMember K D) members members') :
    List.Forall₂ (SameName M D) members members' := by
  induction h with
  | nil => exact .nil
  | cons hmember _ ih =>
    obtain ⟨hkey, hrest⟩ := List.forall_mem_cons.1 hkeys
    refine .cons ?_ (ih hrest)
    cases hmember with
    | included value => exact absurd rfl hkey
    | other _ hrel hvalue => exact ⟨(hK hrel).1, (hK hrel).2, hvalue⟩

theorem Directive.WritesMark.name_eq {key key' : String} (h : WritesMark key key') :
    name key' = name key ∧ isMarked key' = true := by
  obtain ⟨hempty, ⟨hmarked, rfl⟩ | ⟨hunmarked, rfl⟩⟩ := h
  · exact ⟨rfl, isMarked_eq_true_iff.2 hmarked⟩
  · have hmark : IsMarkedAs (key ++ publicKey) key := ⟨hempty, _, by decide, rfl⟩
    rw [isName_iff.1 (Or.inl hmark), isName_iff.1 (Or.inr ⟨hunmarked, rfl⟩)]
    exact ⟨rfl, isMarked_eq_true_iff.2 ⟨key, hmark⟩⟩

theorem names_of_sameName {M : Bool → Bool → Prop}
    (h : List.Forall₂ (SameName M D) members members') :
    members'.keys.map Directive.name = members.keys.map Directive.name := by
  induction h with
  | nil => rfl
  | cons hmember _ ih => exact congrArg₂ List.cons hmember.name_eq ih

/-! ### Walks to the same files -/

namespace Source

variable {source other : Source} {scope scope' : Scope} {file : FilePath}

/-- **The walks from two documents** of a file, one in each source, come to the same files. -/
def SameWalk (source other : Source) (file : FilePath) (d d' : Document) : Prop :=
  ∃ walk, source.Walks file d walk ∧ other.Walks file d' walk

theorem exists_walksAll {ds ds' : List Document}
    (h : List.Forall₂ (SameWalk source other file) ds ds') :
    ∃ walk, source.WalksAll file ds walk ∧ other.WalksAll file ds' walk := by
  induction h with
  | nil => exact ⟨[], .nil, .nil⟩
  | cons hd _ ih =>
    obtain ⟨walk, hwalk, hwalk'⟩ := hd
    obtain ⟨more, hmore, hmore'⟩ := ih
    exact ⟨walk ++ more, .cons hwalk hmore, .cons hwalk' hmore'⟩

/-- The contents of a file in both sources, with walks to the same files. -/
def SameWalkFrom (source other : Source) (path : FilePath) : Prop :=
  ∃ contents contents', source.Holds path contents ∧ other.Holds path contents' ∧
    SameWalk source other path (.object contents) (.object contents')

theorem exists_walksIncluded {items : List Document}
    (h : ∀ text ∈ Directive.namedTexts items,
      SameWalkFrom source other (file.parent.resolve text)) :
    ∃ walk, source.WalksIncluded file items walk ∧ other.WalksIncluded file items walk := by
  induction items with
  | nil => exact ⟨[], .nil, .nil⟩
  | cons item rest ih =>
    by_cases hitem : Directive.NamesNothing item
    · rw [Directive.namedTexts_cons_nothing hitem] at h
      obtain ⟨walk, hwalk, hwalk'⟩ := ih h
      exact ⟨walk, .skipped hitem hwalk, .skipped hitem hwalk'⟩
    · obtain ⟨text, htext, rfl⟩ : ∃ text, text ≠ "" ∧ item = .scalar (.string text) := by
        simpa [Directive.NamesNothing] using hitem
      rw [Directive.namedTexts_cons_string htext] at h
      obtain ⟨hfirst, hrest⟩ := List.forall_mem_cons.1 h
      obtain ⟨contents, contents', hholds, hholds', below, hbelow, hbelow'⟩ := hfirst
      obtain ⟨walk, hwalk, hwalk'⟩ := ih hrest
      exact ⟨_, .entered htext hholds hbelow hwalk, .entered htext hholds' hbelow' hwalk'⟩

/-- Walks of two objects come to the same files when they include the same ones and the walks of
their parts do. -/
theorem sameWalk_object
    (hinclude : members'.get? Directive.includeKey = members.get? Directive.includeKey)
    (hfiles : ∀ text ∈ Directive.texts members,
      SameWalkFrom source other (file.parent.resolve text)) {walk : List FilePath}
    (hparts : source.WalksAll file ((members.get? Directive.publicKey).toList ++
      (Directive.ordinary members).map Prod.snd) walk)
    (hparts' : other.WalksAll file ((members'.get? Directive.publicKey).toList ++
      (Directive.ordinary members').map Prod.snd) walk) :
    SameWalk source other file (.object members) (.object members') := by
  rw [Directive.texts_eq] at hfiles
  obtain ⟨included, hincluded, hincluded'⟩ := exists_walksIncluded hfiles
  have hitems : Directive.includeItems members' = Directive.includeItems members := by
    rw [Directive.includeItems, Directive.includeItems, hinclude]
  exact ⟨included ++ walk, .object hincluded hparts, .object (hitems ▸ hincluded') hparts'⟩

/-- A block without directives is walked through before the other members, and so are its members
where they are written before them. -/
theorem sameWalk_inlined {block inside own : Members Document}
    (hsome : members.get? Directive.publicKey = some (.object block))
    (hnoInclude : block.get? Directive.includeKey = none)
    (hnoPublic : block.get? Directive.publicKey = none)
    (hinclude : members'.get? Directive.includeKey = members.get? Directive.includeKey)
    (hgone : members'.get? Directive.publicKey = none)
    (hordinary : Directive.ordinary members' = inside ++ own)
    (hfiles : ∀ text ∈ Directive.texts members,
      SameWalkFrom source other (file.parent.resolve text))
    (hblock : List.Forall₂ (SameWalk source other file) (block.map Prod.snd)
      (inside.map Prod.snd))
    (hown : List.Forall₂ (SameWalk source other file)
      ((Directive.ordinary members).map Prod.snd) (own.map Prod.snd)) :
    SameWalk source other file (.object members) (.object members') := by
  obtain ⟨walk, hwalk, hwalk'⟩ := exists_walksAll hblock
  obtain ⟨more, hmore, hmore'⟩ := exists_walksAll hown
  have hbefore : source.WalksAll file ((members.get? Directive.publicKey).toList ++
      (Directive.ordinary members).map Prod.snd) (walk ++ more) := by
    rw [hsome]
    exact .cons (.of_plain hnoInclude hnoPublic hwalk) hmore
  have hafter : other.WalksAll file ((members'.get? Directive.publicKey).toList ++
      (Directive.ordinary members').map Prod.snd) (walk ++ more) := by
    rw [hgone, hordinary, List.map_append]
    exact hwalk'.append hmore'
  exact sameWalk_object hinclude hfiles hbefore hafter

end Source

end ConfigTree
