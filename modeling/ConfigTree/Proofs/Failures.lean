import ConfigTree.Proofs.Outcome

/-!
# Where an error comes from

An expansion that fails has a part that fails with the same error, or the fault is its own. For
an array the part is an item. For an object it is a file that it includes, its public block or one
of its members; and its own faults are a file that is on the chain already or holds no object, a
public block that is no object, and two members of one name (`ConfigTree.Source.Raises`). With
`ConfigTree.Source.expansion_induction`, this follows an error down to its origin.
-/

namespace ConfigTree

namespace Load

variable {source : Source} {α β : Type}

/-- A sequence fails exactly when one of its parts does, the second after a success of the
first. -/
theorem outcome_bind_eq_error {load : Load source α} {next : α → Load source β} {e : LoadError}
    (hload : Steady load) (hnext : ∀ a, Steady (next a)) :
    outcome (load >>= next) = .error e ↔
      outcome load = .error e ∨ ∃ a, outcome load = .ok a ∧ outcome (next a) = .error e := by
  rw [outcome_bind hload hnext]
  rcases outcome load with e' | a
  · simp [Except.bind]
  · simp [Except.bind]

/-- A sequence whose second part does not fail, fails with its first. -/
theorem outcome_bind_pure_eq_error {load : Load source α} {f : α → β} {e : LoadError}
    (hload : Steady load) :
    outcome (do return f (← load)) = .error e ↔ outcome load = .error e := by
  rw [outcome_bind_eq_error hload fun _ => steady_pure _]
  simp

theorem outcome_fetchMembers_eq_error {path : FilePath} {e : LoadError} :
    outcome (fetchMembers path : Load source _) = .error e ↔ source.contents path = .error e := by
  rw [← outcome_fetchMembers]
  rcases outcome (fetchMembers path : Load source _) with e' | file <;> simp [Except.map]

end Load

namespace Source

variable {source : Source} {scope : Scope} {e : LoadError}

/-! ### The parts of an array and an object -/

theorem tree_object_eq_error_iff {members : Members Document} :
    source.tree scope (.object members) = .error e ↔
      source.objectTree scope members = .error e := by
  rw [tree, Load.expand, Load.outcome_bind_pure_eq_error (Load.steady_expandObject _ _), objectTree]

/-- The items of an array fail with one of them. -/
theorem exists_item_of_itemTrees {i : Nat} {items : List Document}
    (h : source.itemTrees scope i items = .error e) :
    ∃ j item, items[j]? = some item ∧ source.tree (scope.item (i + j)) item = .error e := by
  induction items generalizing i with
  | nil =>
    rw [itemTrees, Load.expandItems] at h
    simp at h
  | cons item items ih =>
    rw [itemTrees, Load.expandItems, Load.outcome_bind_eq_error (Load.steady_expand _ _)
      (Load.steady_restItems _ _ _)] at h
    rcases h with hitem | ⟨node, -, hrest⟩
    · exact ⟨0, item, rfl, hitem⟩
    · rw [Load.outcome_bind_pure_eq_error (Load.steady_expandItems _ _ _)] at hrest
      obtain ⟨j, item', hitem', htree⟩ := ih hrest
      refine ⟨j + 1, item', hitem', ?_⟩
      rwa [show i + (j + 1) = i + 1 + j by omega]

/-- **An array fails with one of its items.** -/
theorem tree_array_eq_error {items : List Document}
    (h : source.tree scope (.array items) = .error e) :
    ∃ i item, items[i]? = some item ∧ source.tree (scope.item i) item = .error e := by
  rw [tree, Load.expand, Load.outcome_bind_pure_eq_error (Load.steady_expandItems _ _ _)] at h
  simpa using exists_item_of_itemTrees h

/-- The members of an object fail with the value of one of them, or because two of them get one
name. -/
theorem exists_member_of_memberTrees {taken : List String} {members : Members Document}
    (h : source.memberTrees scope taken members = .error e) :
    ∃ member ∈ members, source.tree (scope.member (Directive.name member.1)) member.2 = .error e ∨
      e = .keyCollision scope.file (scope.place.key (Directive.name member.1))
          (Directive.name member.1) ∧
        (Directive.name member.1 ∈ taken ∨ ∃ first, [first, member].Sublist members ∧
          Directive.name first.1 = Directive.name member.1) := by
  induction members generalizing taken with
  | nil =>
    rw [memberTrees, Load.expandMembers] at h
    simp at h
  | cons member members ih =>
    obtain ⟨key, value⟩ := member
    rw [memberTrees, Load.expandMembers_cons] at h
    split at h
    · rename_i htaken
      exact ⟨(key, value), List.mem_cons_self, Or.inr ⟨(Except.error.inj h).symm, Or.inl htaken⟩⟩
    · rw [Load.outcome_bind_eq_error (Load.steady_expand _ _)
        fun _ => Load.steady_restMembers _ _ _ _] at h
      rcases h with hvalue | ⟨node, -, hrest⟩
      · exact ⟨(key, value), List.mem_cons_self, Or.inl hvalue⟩
      · rw [Load.outcome_bind_pure_eq_error (Load.steady_expandMembers _ _ _)] at hrest
        obtain ⟨other, hother, hfault⟩ := ih hrest
        refine ⟨other, List.mem_cons_of_mem _ hother, hfault.imp_right ?_⟩
        -- a name that the rest finds taken was taken before, or is that of the first member
        rintro ⟨rfl, hname | ⟨first, hsub, hnames⟩⟩
        · rcases List.mem_cons.1 hname with heq | hname
          · exact ⟨rfl, Or.inr ⟨(key, value), (List.singleton_sublist.2 hother).cons_cons _,
              heq.symm⟩⟩
          · exact ⟨rfl, Or.inl hname⟩
        · exact ⟨rfl, Or.inr ⟨first, hsub.cons _, hnames⟩⟩

/-- **How a file fails to be included**: it is being expanded already, it holds no object, or its
object fails. -/
inductive FailsToInclude (source : Source) (scope : Scope) (text : String) (e : LoadError) : Prop
  | cycle : scope.target text ∈ scope.chain → e = .cycle (scope.target text) scope.chain →
      FailsToInclude source scope text e
  | contents : source.contents (scope.target text) = .error e → FailsToInclude source scope text e
  | tree {contents : Members Document} : scope.target text ∉ scope.chain →
      source.Holds (scope.target text) contents →
      source.tree (scope.enter (scope.target text)) (.object contents) = .error e →
      FailsToInclude source scope text e

/-- The files that an object includes fail with one of them. -/
theorem exists_text_of_includedTree {texts : List String} {merged : Members (Bool × Marked)}
    (h : source.includedTree scope texts merged = .error e) :
    ∃ text ∈ texts, source.FailsToInclude scope text e := by
  induction texts generalizing merged with
  | nil =>
    rw [includedTree, Load.expandIncludes] at h
    simp at h
  | cons text texts ih =>
    rw [includedTree, Load.expandIncludes] at h
    split at h
    · rename_i hchain
      exact ⟨text, List.mem_cons_self, .cycle hchain (Except.error.inj h).symm⟩
    · rename_i hchain
      -- the file is fetched, then its object expanded, then the other files
      rw [Load.outcome_bind_of_ok (Load.steady_emit _)
        (fun _ => (Load.steady_fetchMembers _).bind (Load.steady_restIncludes _ _ _)) rfl,
        Load.outcome_bind_eq_error (Load.steady_fetchMembers _)
          (Load.steady_restIncludes _ _ _)] at h
      rcases h with hfile | ⟨file, hfile, h⟩
      · exact ⟨text, List.mem_cons_self, .contents (Load.outcome_fetchMembers_eq_error.1 hfile)⟩
      · rw [Load.outcome_bind_eq_error (Load.steady_expandObject _ _)
          fun _ => Load.steady_expandIncludes _ _ _] at h
        rcases h with htree | ⟨tree, -, hrest⟩
        · exact ⟨text, List.mem_cons_self, .tree hchain (Load.outcome_fetchMembers_eq_ok.1 hfile)
            (tree_object_eq_error_iff.2 htree)⟩
        · obtain ⟨other, hother, hfails⟩ := ih hrest
          exact ⟨other, List.mem_cons_of_mem _ hother, hfails⟩

/-- **Why an object fails.** -/
inductive Raises (source : Source) (scope : Scope) (members : Members Document) (e : LoadError) :
    Prop
  /-- A file that it includes fails. -/
  | included {text : String} : text ∈ Directive.texts members →
      source.FailsToInclude scope text e → Raises source scope members e
  /-- Its public block is no object. -/
  | noBlock {d : Document} : members.get? Directive.publicKey = some d →
      (∀ block, d ≠ .object block) →
      e = .invalidPublicBlock scope.file (scope.place.key Directive.publicKey) →
      Raises source scope members e
  /-- Its public block fails. -/
  | block {block : Members Document} : members.get? Directive.publicKey = some (.object block) →
      source.tree scope.inBlock (.object block) = .error e → Raises source scope members e
  /-- The value of a member fails. -/
  | member {member : String × Document} : member ∈ Directive.ordinary members →
      source.tree (scope.member (Directive.name member.1)) member.2 = .error e →
      Raises source scope members e
  /-- Two members get one name. -/
  | collision {first second : String × Document} :
      [first, second].Sublist (Directive.ordinary members) →
      Directive.name first.1 = Directive.name second.1 →
      e = .keyCollision scope.file (scope.place.key (Directive.name second.1))
        (Directive.name second.1) → Raises source scope members e

/-- **An object that fails has a reason.** -/
theorem raises_of_tree_object {members : Members Document}
    (h : source.tree scope (.object members) = .error e) : source.Raises scope members e := by
  rw [tree_object_eq_error_iff, objectTree, Load.expandObject_eq,
    Load.outcome_bind_eq_error (Load.steady_expandIncluded scope members) fun _ =>
      (Load.steady_expandBlock _ _).bind fun _ => Load.steady_restObject _ _ _,
    outcome_expandIncluded] at h
  -- one after the other, the parts of the object succeed until one fails
  rcases h with hincluded | ⟨included, -, h⟩
  · obtain ⟨text, htext, hfails⟩ := exists_text_of_includedTree hincluded
    exact .included htext hfails
  rw [Load.outcome_bind_eq_error (Load.steady_expandBlock _ _)
    fun _ => Load.steady_restObject _ _ _] at h
  rcases h with hblock | ⟨block, -, h⟩
  · rw [Load.expandBlock] at hblock
    split at hblock
    · simp at hblock
    · rename_i block hd
      exact .block hd (tree_object_eq_error_iff.2 hblock)
    · rename_i d hobject hd
      exact .noBlock hd hobject (Except.error.inj hblock).symm
  · rw [Load.outcome_bind_pure_eq_error (Load.steady_expandMembers _ _ _), ← memberTrees] at h
    obtain ⟨member, hmember, hvalue | ⟨he, htaken | ⟨first, hsub, hnames⟩⟩⟩ :=
      exists_member_of_memberTrees h
    · exact .member hmember hvalue
    · exact absurd htaken List.not_mem_nil
    · exact .collision hsub hnames he

end Source

/-- **The expansion of a root file fails** when the file holds no object, or the object fails. -/
theorem Load.outcome_expandRoot_eq_error {source : Source} {root : FilePath} {e : LoadError} :
    outcome (expandRoot root : Load source _) = .error e ↔
      source.contents root = .error e ∨
        ∃ members, source.Holds root members ∧
          source.tree (.top root) (.object members) = .error e := by
  have hobject (file : source.Fetched root (Members Document)) :
      Steady (expandObject (.top root) file.value : Load source _) := steady_expandObject _ _
  rw [expandRoot, outcome_bind_of_ok (steady_emit _) (fun _ => (steady_fetchMembers _).bind hobject)
    rfl, outcome_bind_eq_error (steady_fetchMembers _) hobject, outcome_fetchMembers_eq_error]
  simp only [Source.tree_object_eq_error_iff]
  refine or_congr_right ⟨?_, ?_⟩
  · rintro ⟨file, hfile, htree⟩
    exact ⟨file.value, outcome_fetchMembers_eq_ok.1 hfile, htree⟩
  · rintro ⟨members, hholds, htree⟩
    exact ⟨⟨members, hholds.readable⟩, outcome_fetchMembers_eq_ok.2 hholds, htree⟩

end ConfigTree
