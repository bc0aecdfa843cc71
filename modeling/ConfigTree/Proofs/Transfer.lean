import ConfigTree.Proofs.Tree

/-!
# Trees in two sources

A document **transfers** to one of another source when that one has a tree wherever it has one
itself, and the trees are related (`ConfigTree.Source.Transfers`). What is said here holds for any
relation of trees: arrays transfer when their items do (`ConfigTree.Source.Transfers.array`), also
to other surroundings (`ConfigTree.Source.exists_trees_of_array`), and so do public blocks when the
objects in them do (`ConfigTree.Source.Transfers.exists_blockTree`).
-/

namespace ConfigTree

namespace Source

/-- **A document transfers**: where it has a tree, the document of the other source has a related
one. -/
def Transfers (T : Marked → Marked → Prop) (source other : Source) (scope : Scope)
    (d d' : Document) : Prop :=
  ∀ node, source.tree scope d = .ok node → ∃ node', other.tree scope d' = .ok node' ∧ T node node'

variable {source other : Source} {scope scope' : Scope} {T : Marked → Marked → Prop}

/-- **Arrays have related trees** when their items have, also in other surroundings. -/
theorem exists_trees_of_array {R : Document → Document → Prop} {items items' : List Document}
    {node : Marked} (hnode : source.tree scope (.array items) = .ok node)
    (hitems : List.Forall₂ R items items')
    (hparts : ∀ i item item', items[i]? = some item → R item item' → ∀ node,
      source.tree (scope.item i) item = .ok node →
        ∃ node', other.tree (scope'.item i) item' = .ok node' ∧ T node node') :
    ∃ nodes nodes', node = .array nodes ∧ other.tree scope' (.array items') = .ok (.array nodes') ∧
      List.Forall₂ T nodes nodes' := by
  obtain ⟨nodes, rfl, hnodes, htrees⟩ := tree_array_eq_ok_iff.1 hnode
  obtain ⟨hlength, hrel⟩ := List.forall₂_iff_get.1 hitems
  have hnext (i : Fin nodes.length) :
      ∃ next, other.tree (scope'.item i) items'[i] = .ok next ∧ T nodes[i] next := by
    have hitem : items[i.val]? = some items[i] := List.getElem?_eq_getElem (by omega)
    exact hparts i _ _ hitem (hrel i (by omega) (by omega)) _
      (htrees i _ _ hitem (List.getElem?_eq_getElem i.isLt))
  choose next hnext hrelated using hnext
  refine ⟨nodes, List.ofFn next, rfl, tree_array_eq_ok_iff.2 ⟨_, rfl, by simp; omega, ?_⟩,
    List.forall₂_iff_get.2 ⟨by simp, fun i hi hi' => ?_⟩⟩
  · intro i item there hitem hthere
    obtain ⟨hi, rfl⟩ := List.getElem?_eq_some_iff.1 hitem
    rw [List.getElem?_ofFn, dif_pos (by omega)] at hthere
    exact Option.some.inj hthere ▸ hnext ⟨i, by omega⟩
  · rw [List.get_eq_getElem, List.get_eq_getElem, List.getElem_ofFn]
    exact hrelated ⟨i, hi⟩

namespace Transfers

/-- **Arrays transfer** when their items do. -/
theorem array {R : Document → Document → Prop} {items items' : List Document}
    (hitems : List.Forall₂ R items items')
    (hparts : ∀ i item item', items[i]? = some item → R item item' →
      Transfers T source other (scope.item i) item item')
    (hT : ∀ {nodes nodes'}, List.Forall₂ T nodes nodes' → T (.array nodes) (.array nodes')) :
    Transfers T source other scope (.array items) (.array items') := by
  intro node hnode
  obtain ⟨nodes, nodes', rfl, hnode', hrelated⟩ := exists_trees_of_array hnode hitems hparts
  exact ⟨_, hnode', hT hrelated⟩

/-- The trees of objects are those of their members. -/
theorem exists_objectTree {members members' : Members Document} {tree : Members (Bool × Marked)}
    (h : Transfers T source other scope (.object members) (.object members'))
    (htree : source.objectTree scope members = .ok tree) :
    ∃ tree', other.objectTree scope members' = .ok tree' ∧ T (.object tree) (.object tree') := by
  obtain ⟨node', hnode', hrelated⟩ := h _ (tree_object_of_eq_ok htree)
  obtain ⟨tree', rfl, htree'⟩ := tree_object_eq_ok_iff.1 hnode'
  exact ⟨tree', htree', hrelated⟩

/-- **Public blocks transfer** when the objects in related ones do. -/
theorem exists_blockTree {R : Document → Document → Prop} {members members' : Members Document}
    (hrel : Option.Rel R (members.get? Directive.publicKey) (members'.get? Directive.publicKey))
    {tree : Members (Bool × Marked)} (htree : source.blockTree scope members = .ok tree)
    (hT : T (.object []) (.object []))
    (hblock : ∀ block d', members.get? Directive.publicKey = some (.object block) →
      R (.object block) d' → ∃ block', d' = .object block' ∧
        Transfers T source other scope.inBlock (.object block) (.object block')) :
    ∃ tree', other.blockTree scope members' = .ok tree' ∧ T (.object tree) (.object tree') := by
  rcases blockTree_eq_ok_iff.1 htree with ⟨hnone, rfl⟩ | ⟨block, hsome, hinner⟩
  · rw [hnone] at hrel
    generalize hnone' : members'.get? Directive.publicKey = found at hrel
    cases hrel
    exact ⟨[], blockTree_eq_ok_iff.2 (Or.inl ⟨hnone', rfl⟩), hT⟩
  · rw [hsome] at hrel
    generalize hsome' : members'.get? Directive.publicKey = found at hrel
    cases hrel with
    | some hd =>
      obtain ⟨block', rfl, htransfers⟩ := hblock block _ hsome hd
      obtain ⟨tree', htree', hrelated⟩ := htransfers.exists_objectTree hinner
      exact ⟨tree', blockTree_eq_ok_iff.2 (Or.inr ⟨block', hsome', htree'⟩), hrelated⟩

end Transfers

end Source

end ConfigTree
