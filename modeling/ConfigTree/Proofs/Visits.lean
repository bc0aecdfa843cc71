import ConfigTree.Proofs.Outcome

/-!
# The files that an expansion visits

A successful expansion visits all that its parts visit: the block of an object, its members,
the items of an array, and each included file together with all that its contents visit. So
whatever a load expands on its way was read (`ConfigTree.Source.visited`).
-/

namespace ConfigTree

namespace Load

variable {source : Source} {scope : Scope} {path : FilePath}

theorem mem_visits_expandItems {i : Nat} {items : List Document} {nodes : List Marked}
    (h : source.itemTrees scope i items = .ok nodes) {j : Nat} {item : Document}
    (hitem : items[j]? = some item)
    (hpath : path ∈ visits (expand (scope.item (i + j)) item : Load source _)) :
    path ∈ visits (expandItems scope i items : Load source _) := by
  induction items generalizing i j nodes with
  | nil => simp at hitem
  | cons first rest ih =>
    obtain ⟨node, others, hnode, hothers, -⟩ := Source.itemTrees_cons_eq_ok_iff.1 h
    rw [expandItems, mem_visits_bind (steady_expand _ _) (steady_restItems _ _ _) hnode,
      mem_visits_bind (steady_expandItems _ _ _) (fun _ => steady_pure _) hothers]
    rcases j with _ | j
    · obtain rfl := Option.some.inj hitem
      exact Or.inl hpath
    · rw [show i + (j + 1) = i + 1 + j by omega] at hpath
      exact Or.inr (Or.inl (ih hothers (by simpa using hitem) hpath))

theorem mem_visits_expandMembers {taken : List String} {members : Members Document}
    {own : Members (Bool × Marked)} (h : source.memberTrees scope taken members = .ok own)
    {member : String × Document} (hmember : member ∈ members)
    (hpath : path ∈ visits
      (expand (scope.member (Directive.name member.1)) member.2 : Load source _)) :
    path ∈ visits (expandMembers scope taken members : Load source _) := by
  induction members generalizing taken own with
  | nil => simp at hmember
  | cons first rest ih =>
    obtain ⟨key, value⟩ := first
    obtain ⟨htaken, entry, others, ⟨-, -, hnode⟩, hothers, -⟩ :=
      Source.memberTrees_cons_eq_ok_iff.1 h
    rw [expandMembers_cons, if_neg htaken,
      mem_visits_bind (steady_expand _ _) (fun _ => steady_restMembers _ _ _ _) hnode,
      mem_visits_bind (steady_expandMembers _ _ _) (fun _ => steady_pure _) hothers]
    rcases List.mem_cons.1 hmember with rfl | hmember
    · exact Or.inl hpath
    · exact Or.inr (Or.inl (ih hothers hmember))

/-- An included file is visited, and then what its contents visit. -/
theorem mem_visits_expandIncludes {texts : List String} {merged tree : Members (Bool × Marked)}
    (h : source.includedTree scope texts merged = .ok tree) {text : String} (htext : text ∈ texts)
    {contents : Members Document} (hholds : source.Holds (scope.target text) contents)
    (hpath : path = scope.target text ∨ path ∈ visits
      (expandObject (scope.enter (scope.target text)) contents : Load source _)) :
    path ∈ visits (expandIncludes scope texts merged : Load source _) := by
  induction texts generalizing merged tree with
  | nil => simp at htext
  | cons first rest ih =>
    obtain ⟨file, ⟨hnew, members, hmembers, hfile⟩, hrest⟩ :=
      Source.includedTree_cons_eq_ok_iff.1 h
    have hfetched : outcome (fetchMembers (scope.target first) : Load source _) =
        .ok ⟨members, hmembers.readable⟩ := outcome_fetchMembers_eq_ok.2 hmembers
    rw [expandIncludes, dif_neg hnew, mem_visits_bind (steady_emit _)
      (fun _ => (steady_fetchMembers _).bind (steady_restIncludes _ _ _)) rfl,
      mem_visits_bind (steady_fetchMembers _) (steady_restIncludes _ _ _) hfetched,
      mem_visits_bind (steady_expandObject _ _) (fun _ => steady_expandIncludes _ _ _) hfile]
    rcases List.mem_cons.1 htext with rfl | htext
    · obtain rfl := hmembers.unique hholds
      rcases hpath with rfl | hpath
      · exact Or.inr (Or.inl (mem_visits_fetchMembers _))
      · exact Or.inr (Or.inr (Or.inl hpath))
    · exact Or.inr (Or.inr (Or.inr (ih hrest htext)))

theorem mem_visits_expandIncluded {members : Members Document}
    (hpath : path ∈ visits (expandIncludes scope (Directive.texts members) [] : Load source _)) :
    path ∈ visits (expandIncluded scope members : Load source _) := by
  rw [expandIncluded]
  rw [Directive.texts] at hpath
  rcases hvalue : members.get? Directive.includeKey with _ | value <;> rw [hvalue] at hpath
  · rw [Option.elim_none, expandIncludes] at hpath
    exact absurd hpath List.not_mem_nil
  · exact (mem_visits_bind (steady_reportIncludes scope value)
      (fun _ => steady_expandIncludes _ _ _) (outcome_reportIncludes scope value)).2 (Or.inr hpath)

/-- **What a successful object visits**: what its three parts do. -/
theorem mem_visits_expandObject {members : Members Document} {tree : Members (Bool × Marked)}
    (h : source.objectTree scope members = .ok tree) :
    path ∈ visits (expandObject scope members : Load source _) ↔
      path ∈ visits (expandIncluded scope members : Load source _) ∨
        path ∈ visits (expandBlock scope members : Load source _) ∨
        path ∈ visits (expandMembers scope [] (Directive.ordinary members) : Load source _) := by
  obtain ⟨trees, block, own, htrees, hblock, hnames, hentries, -⟩ :=
    Source.objectTree_eq_ok_iff.1 h
  have hincluded : outcome (expandIncluded scope members : Load source _) =
      .ok (trees.foldl Marked.mergeMembers []) := by
    rw [Source.outcome_expandIncluded, Source.includedTree_eq_ok_iff]
    exact ⟨trees, htrees, rfl⟩
  have hown : outcome (expandMembers scope [] (Directive.ordinary members) : Load source _) =
      .ok own :=
    Source.memberTrees_eq_ok_iff.2 ⟨hnames, fun _ _ => List.not_mem_nil, hentries⟩
  rw [expandObject_eq, mem_visits_bind (steady_expandIncluded _ _)
    (fun _ => (steady_expandBlock _ _).bind fun _ => steady_restObject _ _ _) hincluded,
    mem_visits_bind (steady_expandBlock _ _) (fun _ => steady_restObject _ _ _) hblock,
    mem_visits_bind (steady_expandMembers _ _ _) (fun _ => steady_pure _) hown]
  exact or_congr_right (or_congr_right (or_iff_left List.not_mem_nil))

theorem mem_visits_expand_object {members : Members Document} {node : Marked}
    (h : source.tree scope (.object members) = .ok node) :
    path ∈ visits (expand scope (.object members) : Load source _) ↔
      path ∈ visits (expandObject scope members : Load source _) := by
  obtain ⟨tree, rfl, htree⟩ := Source.tree_object_eq_ok_iff.1 h
  rw [expand, mem_visits_bind (steady_expandObject _ _) (fun _ => steady_pure _) htree]
  exact or_iff_left List.not_mem_nil

end Load

namespace Source

open Load

variable {source : Source} {scope : Scope} {path : FilePath}

/-! ### From a part to the whole -/

theorem mem_visits_of_item {items : List Document} {node : Marked}
    (h : source.tree scope (.array items) = .ok node) {i : Nat} {item : Document}
    (hitem : items[i]? = some item)
    (hpath : path ∈ visits (expand (scope.item i) item : Load source _)) :
    path ∈ visits (expand scope (.array items) : Load source _) := by
  obtain ⟨nodes, -, hnodes⟩ := tree_array_eq_ok_iff.1 h
  have hitems : source.itemTrees scope 0 items = .ok nodes := by
    simpa [itemTrees_eq_ok_iff] using hnodes
  rw [expand, mem_visits_bind (steady_expandItems _ _ _) (fun _ => steady_pure _) hitems]
  exact Or.inl (mem_visits_expandItems hitems hitem (by rwa [Nat.zero_add]))

variable {members : Members Document} {node : Marked}

theorem mem_visits_of_block (h : source.tree scope (.object members) = .ok node) {d : Document}
    (hd : members.get? Directive.publicKey = some d)
    (hpath : path ∈ visits (expand scope.inBlock d : Load source _)) :
    path ∈ visits (expand scope (.object members) : Load source _) := by
  obtain ⟨tree, -, htree⟩ := tree_object_eq_ok_iff.1 h
  obtain ⟨-, hblock, -⟩ := expands_object_iff.1 ⟨node, h⟩
  obtain ⟨block, rfl, inner, hinner⟩ := hblock d hd
  rw [mem_visits_expand_object h, mem_visits_expandObject htree]
  rw [mem_visits_expand_object hinner] at hpath
  refine Or.inr (Or.inl ?_)
  rw [expandBlock, hd]
  exact hpath

theorem mem_visits_of_member (h : source.tree scope (.object members) = .ok node)
    {member : String × Document} (hmember : member ∈ Directive.ordinary members)
    (hpath : path ∈ visits
      (expand (scope.member (Directive.name member.1)) member.2 : Load source _)) :
    path ∈ visits (expand scope (.object members) : Load source _) := by
  obtain ⟨tree, -, htree⟩ := tree_object_eq_ok_iff.1 h
  obtain ⟨trees, block, own, -, -, hnames, hentries, -⟩ := objectTree_eq_ok_iff.1 htree
  have hown : source.memberTrees scope [] (Directive.ordinary members) = .ok own :=
    memberTrees_eq_ok_iff.2 ⟨hnames, fun _ _ => List.not_mem_nil, hentries⟩
  rw [mem_visits_expand_object h, mem_visits_expandObject htree]
  exact Or.inr (Or.inr (mem_visits_expandMembers hown hmember hpath))

theorem mem_visits_of_included (h : source.tree scope (.object members) = .ok node) {text : String}
    (htext : text ∈ Directive.texts members) {contents : Members Document}
    (hholds : source.Holds (scope.target text) contents)
    (hpath : path = scope.target text ∨ path ∈ visits
      (expand (scope.enter (scope.target text)) (.object contents) : Load source _)) :
    path ∈ visits (expand scope (.object members) : Load source _) := by
  obtain ⟨tree, -, htree⟩ := tree_object_eq_ok_iff.1 h
  obtain ⟨trees, block, own, htrees, -⟩ := objectTree_eq_ok_iff.1 htree
  obtain ⟨included, -, -, contents', hholds', hincluded⟩ := exists_right_of_forall₂ htrees htext
  obtain rfl := hholds.unique hholds'
  rw [mem_visits_expand_object (tree_object_of_eq_ok hincluded)] at hpath
  have hfiles : source.includedTree scope (Directive.texts members) [] = .ok _ :=
    includedTree_eq_ok_iff.2 ⟨trees, htrees, rfl⟩
  rw [mem_visits_expand_object h, mem_visits_expandObject htree]
  exact Or.inl (mem_visits_expandIncluded (mem_visits_expandIncludes hfiles htext hholds hpath))

/-! ### The files of a load -/

/-- A load visits its root file, and what the contents of that file visit. -/
theorem mem_visited {root : FilePath} (hholds : source.Holds root members)
    (hpath : path = root ∨
      path ∈ visits (expand (.top root) (.object members) : Load source _))
    (h : source.tree (.top root) (.object members) = .ok node) : path ∈ source.visited root := by
  have hfetched : outcome (fetchMembers root : Load source _) = .ok ⟨members, hholds.readable⟩ :=
    outcome_fetchMembers_eq_ok.2 hholds
  rw [visited, expandRoot, mem_visits_bind (steady_emit _)
    (fun _ => (steady_fetchMembers _).bind fun _ => steady_expandObject _ _) rfl,
    mem_visits_bind (steady_fetchMembers _) (fun _ => steady_expandObject _ _) hfetched]
  rw [mem_visits_expand_object h] at hpath
  rcases hpath with rfl | hpath
  · exact Or.inr (Or.inl (mem_visits_fetchMembers _))
  · exact Or.inr (Or.inr hpath)

end Source

end ConfigTree
