import ConfigTree.Proofs.Correspondence

/-!
# Parallel loads

Two sources are **parallel** (`ConfigTree.Source.Parallel`) if under every path they give the
same error or documents that become equal when a function is applied to their scalars, those in
the values of include members apart. Which files an object includes, what its keys mean and
which of its values are objects is then the same in both (`ConfigTree.correspondence_same`), so
that two loads from parallel sources show the same in all but scalars
(`ConfigTree.load_parallel`).
-/

namespace ConfigTree

variable {source other : Source} {f : Scalar → Scalar}

/-- **Documents that are the same to a load** but for what the function hides of their
scalars. -/
def Document.Same (f : Scalar → Scalar) (d d' : Document) : Prop :=
  d.mapScalars f [Directive.includeKey] = d'.mapScalars f [Directive.includeKey]

/-- **Parallel sources** give the same to a load under every path. -/
def Source.Parallel (f : Scalar → Scalar) (source other : Source) : Prop :=
  ∀ path, SameOutcome (Document.Same f) (source.document path) (other.document path)

namespace Document

/-- A document that is the same as a scalar is one. -/
theorem Same.exists_scalar {s : Scalar} {d : Document} (h : Same f (.scalar s) d) :
    ∃ s', d = .scalar s' ∧ f s = f s' := by
  rcases d with s' | items | members <;> simp only [Same, mapScalars, reduceCtorEq] at h
  exact ⟨s', rfl, Document.scalar.inj h⟩

/-- A document that is the same as an array is one, item by item. -/
theorem Same.exists_array {items : List Document} {d : Document} (h : Same f (.array items) d) :
    ∃ items', d = .array items' ∧ List.Forall₂ (Same f) items items' := by
  rcases d with s | items' | members <;> simp only [Same, mapScalars, reduceCtorEq] at h
  exact ⟨items', rfl, forall₂_of_mapItems (Document.array.inj h)⟩

/-- A document that is the same as an object is one. -/
theorem Same.exists_object {members : Members Document} {d : Document}
    (h : Same f (.object members) d) :
    ∃ members', d = .object members' ∧ Same f (.object members) (.object members') := by
  rcases d with s | items | members'
  · simp only [Same, mapScalars, reduceCtorEq] at h
  · simp only [Same, mapScalars, reduceCtorEq] at h
  · exact ⟨members', rfl, h⟩

variable {members members' : Members Document}

theorem Same.mapMembers_eq (h : Same f (.object members) (.object members')) :
    mapMembers f [Directive.includeKey] members = mapMembers f [Directive.includeKey] members' := by
  rw [Same, mapScalars, mapScalars] at h
  exact Document.object.inj h

/-- Include members are the same. -/
theorem Same.get?_include (h : Same f (.object members) (.object members')) :
    members.get? Directive.includeKey = members'.get? Directive.includeKey := by
  have hget := congrArg (Members.get? · Directive.includeKey) h.mapMembers_eq
  simpa [get?_mapMembers] using hget

/-- Public blocks correspond. -/
theorem Same.get?_public (h : Same f (.object members) (.object members')) :
    Option.Rel (Same f) (members.get? Directive.publicKey)
      (members'.get? Directive.publicKey) := by
  have hget := congrArg (Members.get? · Directive.publicKey) h.mapMembers_eq
  have hkey : Directive.publicKey ∉ [Directive.includeKey] := by decide
  simp only [get?_mapMembers, if_neg hkey] at hget
  generalize members.get? Directive.publicKey = value at hget ⊢
  generalize members'.get? Directive.publicKey = value' at hget ⊢
  rcases value with _ | d <;> rcases value' with _ | d'
  · exact .none
  · simp at hget
  · simp at hget
  · exact .some (Option.some.inj hget)

/-- Ordinary members have the same keys, and their values correspond. -/
theorem Same.ordinary (h : Same f (.object members) (.object members')) :
    List.Forall₂ (fun member member' => member.1 = member'.1 ∧ Same f member.2 member'.2)
      (Directive.ordinary members) (Directive.ordinary members') := by
  simp only [Directive.ordinary, Members.erase, List.filter_filter]
  refine forall₂_of_mapMembers (p := fun key => decide (key ≠ Directive.publicKey) &&
    decide (key ≠ Directive.includeKey)) ?_ h.mapMembers_eq
  intro key hkey
  simp [List.mem_singleton.1 hkey]

end Document

/-- Documents that are the same correspond in every file. -/
theorem correspondence_same : Correspondence f fun _ => Document.Same f where
  scalar h := h.exists_scalar
  array h := h.exists_array
  object h := by
    obtain ⟨members', rfl, hmembers⟩ := h.exists_object
    refine ⟨members', rfl, ?_, hmembers.get?_public, hmembers.ordinary⟩
    rw [← hmembers.get?_include]
    rcases Members.get? _ Directive.includeKey with _ | value
    · exact .none
    · exact .some (.refl _ value)

/-- **Loads from parallel sources** show the same. -/
theorem load_parallel {env : Environment} (h : env.source.Parallel f other) (cwd path : String) :
    Report.Same f (load env cwd path) (load { env with source := other } cwd path) :=
  load_corresponds correspondence_same h cwd path

/-- **A load depends on first answers only**: no path is asked for twice. -/
theorem load_congr {env : Environment} (h : ∀ path, env.source.answer path 0 = other.answer path 0)
    (cwd path : String) : load env cwd path = load { env with source := other } cwd path := by
  refine (load_parallel (f := id) (fun path => ?_) cwd path).eq
  have hdocument : other.document path = env.source.document path := by
    rw [Source.document, Source.document, h]
  rw [hdocument]
  rcases env.source.document path with e | d
  · exact .error e
  · exact .ok rfl

end ConfigTree
