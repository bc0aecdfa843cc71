import ConfigTree.Load.Directive

/-!
# What directives say

The rules of `ConfigTree.Directive` as statements about keys and values, without the
functions that apply them: what a mark is (`ConfigTree.Directive.IsMark`), which name a key
gives (`ConfigTree.Directive.IsName`), which files an include value names
(`ConfigTree.Directive.Names`), which members are ordinary
(`ConfigTree.Directive.mem_ordinary`). The functions are shown to follow these rules.
-/

namespace ConfigTree

namespace Directive

/-! ### Names and marks -/

/-- **A mark**: the suffix `#public` in letters of either case. -/
def IsMark (suffix : String) : Prop := suffix.toList.map Char.toLower = publicKey.toList

/-- The key is this name followed by a mark; the name is not empty. -/
def IsMarkedAs (key name : String) : Prop :=
  name ≠ "" ∧ ∃ suffix, IsMark suffix ∧ key = name ++ suffix

/-- **The name of a key**: what stands before its mark, or the key itself if it carries
none. -/
def IsName (key name : String) : Prop :=
  IsMarkedAs key name ∨ (¬∃ stem, IsMarkedAs key stem) ∧ name = key

/-- The name of a key, without its mark. -/
def name (key : String) : String := (memberName key).1

/-- Whether a key carries a mark. -/
def isMarked (key : String) : Bool := (memberName key).2

instance (suffix : String) : Decidable (IsMark suffix) := inferInstanceAs (Decidable (_ = _))

theorem IsMark.length {suffix : String} (h : IsMark suffix) :
    suffix.toList.length = publicKey.length := by
  have hlength := congrArg List.length h
  rwa [List.length_map, String.length_toList] at hlength

theorem markedName?_eq_some_iff {key name : String} :
    markedName? key = some name ↔ IsMarkedAs key name := by
  constructor
  · intro h
    simp only [markedName?, Option.ite_none_right_eq_some, Option.some.injEq] at h
    obtain ⟨⟨hpos, hmark⟩, rfl⟩ := h
    refine ⟨fun hempty => ?_,
      String.ofList (key.toList.drop (key.toList.length - publicKey.length)), ?_, ?_⟩
    · have hlength := congrArg (fun s : String => s.toList.length) hempty
      simp only [String.toList_ofList, List.length_take, String.toList_empty, List.length_nil]
        at hlength
      omega
    · rw [IsMark, String.toList_ofList]
      exact hmark
    · apply String.toList_injective
      rw [String.toList_append, String.toList_ofList, String.toList_ofList, List.take_append_drop]
  · rintro ⟨hname, suffix, hmark, rfl⟩
    have hlength : (name ++ suffix).toList.length - publicKey.length = name.toList.length := by
      rw [String.toList_append, List.length_append, hmark.length]
      omega
    have hpos : 0 < name.toList.length := List.length_pos_iff.2 (by simpa using hname)
    simp only [markedName?]
    rw [hlength, String.toList_append, List.drop_left, List.take_left, if_pos ⟨hpos, hmark⟩,
      String.ofList_toList]

theorem markedName?_eq_none_iff {key : String} :
    markedName? key = none ↔ ¬∃ stem, IsMarkedAs key stem := by
  rw [Option.eq_none_iff_forall_ne_some, not_exists]
  exact forall_congr' fun stem => not_congr markedName?_eq_some_iff

theorem memberName_of_some {key stem : String} (h : markedName? key = some stem) :
    memberName key = (stem, true) := by
  rw [memberName, h]
  rfl

theorem memberName_of_none {key : String} (h : markedName? key = none) :
    memberName key = (key, false) := by
  rw [memberName, h]
  rfl

theorem memberName_eq (key : String) : memberName key = (name key, isMarked key) :=
  (Prod.eta (memberName key)).symm

theorem isMarked_eq_true_iff {key : String} :
    isMarked key = true ↔ ∃ stem, IsMarkedAs key stem := by
  rcases h : markedName? key with _ | stem
  · rw [isMarked, memberName_of_none h]
    exact iff_of_false Bool.false_ne_true (markedName?_eq_none_iff.1 h)
  · rw [isMarked, memberName_of_some h]
    exact iff_of_true rfl ⟨stem, markedName?_eq_some_iff.1 h⟩

instance (key : String) : Decidable (∃ stem, IsMarkedAs key stem) :=
  decidable_of_iff (isMarked key = true) isMarked_eq_true_iff

/-- **The name of a key is what the rule says.** -/
theorem isName_iff {key other : String} : IsName key other ↔ name key = other := by
  rcases h : markedName? key with _ | stem
  · have hnone := markedName?_eq_none_iff.1 h
    rw [name, memberName_of_none h]
    constructor
    · rintro (hother | ⟨-, rfl⟩)
      · exact absurd ⟨other, hother⟩ hnone
      · rfl
    · rintro rfl
      exact Or.inr ⟨hnone, rfl⟩
  · have hstem := markedName?_eq_some_iff.1 h
    rw [name, memberName_of_some h]
    constructor
    · rintro (hother | ⟨hnone, -⟩)
      · exact Option.some.inj (h.symm.trans (markedName?_eq_some_iff.2 hother))
      · exact absurd ⟨stem, hstem⟩ hnone
    · rintro rfl
      exact Or.inl hstem

/-! ### Ordinary members -/

/-- The ordinary members are those under other keys than the two of directives. -/
theorem mem_ordinary {members : Members Document} {member : String × Document} :
    member ∈ ordinary members ↔
      member ∈ members ∧ member.1 ≠ includeKey ∧ member.1 ≠ publicKey := by
  simp [ordinary, Members.erase, and_comm]

/-- All members of an object without directives are ordinary. -/
theorem ordinary_eq_self {members : Members Document} (hinclude : members.get? includeKey = none)
    (hpublic : members.get? publicKey = none) : ordinary members = members := by
  rw [ordinary, Members.erase_eq_self hinclude, Members.erase_eq_self hpublic]

theorem ordinary_cons_directive {key : String} {value : Document} {rest : Members Document}
    (h : key = includeKey ∨ key = publicKey) : ordinary ((key, value) :: rest) = ordinary rest := by
  rcases h with rfl | rfl <;> simp [ordinary, Members.erase, includeKey, publicKey]

theorem ordinary_cons {key : String} {value : Document} {rest : Members Document}
    (hinclude : key ≠ includeKey) (hpublic : key ≠ publicKey) :
    ordinary ((key, value) :: rest) = (key, value) :: ordinary rest := by
  simp [ordinary, Members.erase, hinclude, hpublic]

/-! ### Files to include -/

/-- **The files that an include value names**: the text of a string, and those of the strings
in a list, unless they are empty. -/
def Names (value : Document) (text : String) : Prop :=
  text ≠ "" ∧ (value = .scalar (.string text) ∨
    ∃ items, value = .array items ∧ .scalar (.string text) ∈ items)

theorem string?_eq_some_iff {d : Document} {text : String} :
    string? d = some text ↔ d = .scalar (.string text) := by
  rcases d with (_ | _ | _ | _) | _ | _ <;> simp [string?]

theorem mem_includedTexts {value : Document} {text : String} :
    text ∈ includedTexts value ↔ Names value text := by
  rcases value with s | items | members
  · simp [includedTexts, Names, string?_eq_some_iff, and_comm]
  · simp [includedTexts, Names, string?_eq_some_iff, and_comm]
  · simp [includedTexts, Names, string?]

/-- The files that an object includes, as its include member names them. -/
def texts (members : Members Document) : List String :=
  (members.get? includeKey).elim [] includedTexts

theorem texts_congr {members members' : Members Document}
    (h : members'.get? includeKey = members.get? includeKey) : texts members' = texts members := by
  rw [texts, texts, h]

theorem mem_texts {members : Members Document} {text : String} :
    text ∈ texts members ↔ ∃ value, members.get? includeKey = some value ∧ Names value text := by
  rw [texts]
  rcases members.get? includeKey with _ | value
  · simp
  · simp [mem_includedTexts]

end Directive

end ConfigTree
