import ConfigTree.CommandLine
import ConfigTree.MemoryFiles
import ConfigTree.Proofs.Printing
import ConfigTree.Proofs.Residue
import ConfigTree.Proofs.Walk

/-!
# What the command prints can be loaded back

Whatever the command prints of a configuration without doubles holds exactly the document that was
to be printed (`ConfigTree.parse_render`): the texts of documents that repeat no key are read back,
and neither the configuration nor its public subset repeats a key, since a subset keeps what its
document has (`ConfigTree.Document.subset_keeps`).

An object with no reserved key, as a root file, goes through an expansion unchanged: nothing in it
is a directive, so nothing is merged or marked (`ConfigTree.Source.tree_of_clean`) and no other file
is come to (`ConfigTree.Source.walks_of_clean`). Together with its text being read back, its loading
is the identity (`ConfigTree.output_loads_back`).
-/

namespace ConfigTree

open Document

/-! ### Loaded documents -/

namespace Document

theorem distinct_subset {d : Document} {paths : List ValuePath} (h : d.Distinct)
    (hfound : ∀ p ∈ paths, ∃ value, d.find? p = some value) : (d.subset paths).Distinct :=
  subset_keeps hfound h trivial Distinct.child
    (fun _ hitems => distinctItems_iff.2 hitems)
    fun _ hkeys hvalues => ⟨hkeys, distinctMembers_iff.2 hvalues⟩

theorem integral_subset {d : Document} {paths : List ValuePath} (h : d.Integral)
    (hfound : ∀ p ∈ paths, ∃ value, d.find? p = some value) : (d.subset paths).Integral :=
  subset_keeps hfound h (integral_scalar nofun) Integral.child
    (fun _ hitems => integral_array hitems) fun _ _ hvalues => integral_object hvalues

end Document

/-- **Whatever is printed repeats no key**, and has no doubles if the configuration has none. -/
theorem selected_of_load {env : Environment} {cwd path : String} {loaded : Loaded}
    (h : (load env cwd path).outcome = .ok loaded) (hintegral : loaded.config.Integral)
    (options : CommandLine.Options) :
    (options.selected loaded).Distinct ∧ (options.selected loaded).Integral := by
  obtain ⟨-, dir, -, members, tree, -, htree, rfl⟩ := load_eq_ok_iff.1 h
  have hmarked : (Marked.object tree).Distinct :=
    Source.distinct_tree (Source.tree_object_of_eq_ok htree)
  have hdistinct := hmarked.plain
  have hfound : ∀ p ∈ (Marked.object tree).publicPaths,
      ∃ value, (Marked.object tree).plain.find? p = some value := fun p =>
    Marked.find?_plain_of_mem hmarked
  rw [Marked.publicPaths_object, Marked.plain_object] at hfound
  rw [Marked.plain_object] at hdistinct
  have hsubset := distinct_subset hdistinct hfound
  have hsubset' := integral_subset hintegral hfound
  rw [CommandLine.Options.selected]
  split
  · exact ⟨hsubset, hsubset'⟩
  · refine ⟨⟨hdistinct.1.put _ _, distinctMembers_iff.2 fun member hmember => ?_⟩,
      integral_object fun member hmember => ?_⟩
    · rcases Members.mem_of_mem_put hmember with rfl | hmember
      · exact hsubset
      · exact distinctMembers_iff.1 hdistinct.2 member hmember
    · rcases Members.mem_of_mem_put hmember with rfl | hmember
      · exact hsubset'
      · exact hintegral.member hdistinct.1 hmember

/-- **Every output holds what was selected.** -/
theorem parse_render {env : Environment} {cwd path : String} {loaded : Loaded}
    (h : (load env cwd path).outcome = .ok loaded) (hintegral : loaded.config.Integral)
    (options : CommandLine.Options) :
    Document.parse (options.render (options.selected loaded)) = .ok (options.selected loaded) := by
  obtain ⟨hdistinct, hselected⟩ := selected_of_load h hintegral options
  have hwrite (layout : Layout) : parse (String.ofList
      ((options.selected loaded).write layout 0 ++ ['\n'])) = .ok (options.selected loaded) :=
    parse_write layout hselected hdistinct (Or.inr rfl)
  rw [CommandLine.Options.render]
  split
  · rw [compact, ← hwrite .compact, String.ofList_append]
  · rw [pretty, ← hwrite (.lines 2), String.ofList_append]

/-! ### Documents without directives -/

namespace Document

theorem Clean.child {d child : Document} {step : Step} (h : d.Clean)
    (hchild : d.child? step = some child) : child.Clean := by
  intro p members hmembers
  exact h (step :: p) members (by rw [find?_cons, hchild, Option.bind_some, hmembers])

theorem clean_scalar (s : Scalar) : (Document.scalar s).Clean := by
  rintro (_ | ⟨step, p⟩) members h
  · simp at h
  · cases step <;> simp [find?_cons, Document.child?] at h

theorem clean_object {members : Members Document}
    (hkeys : ∀ key ∈ members.keys, ¬Directive.IsReserved key)
    (hvalues : ∀ member ∈ members, member.2.Clean) : (Document.object members).Clean := by
  rintro (_ | ⟨name | _, p⟩) inner h
  · obtain rfl := Document.object.inj (Option.some.inj h)
    exact hkeys
  · obtain ⟨value, hvalue, h⟩ := Option.bind_eq_some_iff.1 h
    exact hvalues _ (Members.mem_of_get? hvalue) p inner h
  · simp [find?_cons, Document.child?] at h

theorem Clean.not_reserved {members : Members Document} (h : (Document.object members).Clean)
    {key : String} (hkey : key ∈ members.keys) : ¬Directive.IsReserved key :=
  h [] members rfl key hkey

variable {members : Members Document}

theorem Clean.get?_include (h : (Document.object members).Clean) :
    members.get? Directive.includeKey = none :=
  Members.get?_eq_none_iff.2 fun hkey => h.not_reserved hkey (Or.inl rfl)

theorem Clean.get?_public (h : (Document.object members).Clean) :
    members.get? Directive.publicKey = none :=
  Members.get?_eq_none_iff.2 fun hkey => h.not_reserved hkey (Or.inr (Or.inl rfl))

end Document

namespace Directive

/-- A key that is not reserved is the name of its member, which it does not mark. -/
theorem name_of_not_reserved {key : String} (h : ¬IsReserved key) :
    name key = key ∧ isMarked key = false := by
  have hunmarked : ¬∃ stem, IsMarkedAs key stem := fun hmarked => h (Or.inr (Or.inr hmarked))
  exact ⟨isName_iff.1 (Or.inr ⟨hunmarked, rfl⟩),
    Bool.eq_false_iff.2 (mt isMarked_eq_true_iff.1 hunmarked)⟩

end Directive

namespace Source

variable {source : Source} {scope : Scope}

/-- Members under keys that are not reserved have the entries of unmarked members. -/
theorem entries_ofMembers {members : Members Document} (hpublic : scope.isPublic = false)
    (hmembers : ∀ member ∈ members, ¬Directive.IsReserved member.1 ∧
      source.tree (scope.member member.1) member.2 = .ok (Marked.ofDocument member.2)) :
    List.Forall₂ (source.Entry scope) members (Marked.ofMembers members) := by
  induction members with
  | nil =>
    rw [Marked.ofMembers]
    exact .nil
  | cons member rest ih =>
    obtain ⟨key, value⟩ := member
    obtain ⟨⟨hkey, hvalue⟩, hrest⟩ := List.forall_mem_cons.1 hmembers
    obtain ⟨hname, hmark⟩ := Directive.name_of_not_reserved hkey
    rw [Marked.ofMembers]
    refine .cons ⟨hname.symm, by rw [hmark, hpublic]; rfl, ?_⟩ (ih hrest)
    rw [hname]
    exact hvalue

/-- **A document without directives** is expanded to itself, with nothing marked. -/
theorem tree_of_clean {d : Document} (hclean : d.Clean) (hdistinct : d.Distinct)
    (hpublic : scope.isPublic = false) : source.tree scope d = .ok (Marked.ofDocument d) := by
  induction d using Document.induction generalizing scope with
  | scalar s => rw [tree_scalar, Marked.ofDocument]
  | array items ih =>
    rw [Distinct, distinctItems_iff] at hdistinct
    rw [Marked.ofDocument, tree_array_eq_ok_iff, Marked.ofItems_eq_map]
    refine ⟨_, rfl, List.length_map _, fun i item node hitem hnode => ?_⟩
    have hchild : (Document.array items).child? (.index i) = some item := hitem
    rw [List.getElem?_map, hitem] at hnode
    obtain rfl := Option.some.inj hnode
    have hmem := List.mem_of_getElem? hitem
    exact ih item hmem (hclean.child hchild) (hdistinct item hmem) hpublic
  | object members ih =>
    rw [Distinct, distinctMembers_iff] at hdistinct
    have hordinary := Directive.ordinary_eq_self hclean.get?_include hclean.get?_public
    have hkeys : (Members.keys members).map Directive.name = Members.keys members :=
      (List.map_congr_left fun key hkey =>
        (Directive.name_of_not_reserved (hclean.not_reserved hkey)).1).trans (List.map_id _)
    have hentries : List.Forall₂ (source.Entry scope) members (Marked.ofMembers members) := by
      refine entries_ofMembers hpublic fun member hmember => ⟨?_, ?_⟩
      · exact hclean.not_reserved (List.mem_map_of_mem hmember)
      · exact ih member hmember (hclean.child (child?_of_mem_members hdistinct.1 hmember))
          (hdistinct.2 member hmember) hpublic
    rw [Marked.ofDocument]
    refine tree_object_of_eq_ok (objectTree_eq_ok_iff.2 ⟨[], [], Marked.ofMembers members, ?_,
      blockTree_eq_ok_iff.2 (Or.inl ⟨hclean.get?_public, rfl⟩), ?_, ?_, ?_⟩)
    · rw [Directive.texts, hclean.get?_include]
      exact .nil
    · rw [hordinary, hkeys]
      exact hdistinct.1
    · rwa [hordinary]
    · rw [List.foldl_nil, Marked.mergeMembers_nil, Marked.mergeMembers_nil]

/-- **A document without directives** leads to no other file. -/
theorem walks_of_clean {d : Document} (hclean : d.Clean) (hdistinct : d.Distinct)
    (file : FilePath) : source.Walks file d [] := by
  have hall {ds : List Document} (h : ∀ d ∈ ds, source.Walks file d []) :
      source.WalksAll file ds [] := by
    induction ds with
    | nil => exact .nil
    | cons d ds ih =>
      obtain ⟨hd, hds⟩ := List.forall_mem_cons.1 h
      exact .cons hd (ih hds)
  induction d using Document.induction with
  | scalar s => exact .scalar s
  | array items ih =>
    rw [Distinct, distinctItems_iff] at hdistinct
    refine .array (hall fun item hitem => ?_)
    obtain ⟨i, hchild⟩ := exists_child?_of_mem hitem
    exact ih item hitem (hclean.child hchild) (hdistinct item hitem)
  | object members ih =>
    rw [Distinct, distinctMembers_iff] at hdistinct
    refine .of_plain hclean.get?_include hclean.get?_public (hall ?_)
    rw [List.forall_mem_map]
    intro member hmember
    exact ih member hmember (hclean.child (child?_of_mem_members hdistinct.1 hmember))
      (hdistinct.2 member hmember)

end Source

/-- **A root file without directives** is loaded as what it holds. -/
theorem load_of_clean {env : Environment} {cwd path : String} {dir : FilePath}
    {members : Members Document} (hpath : path ≠ "") (hdir : env.directory cwd = .ok dir)
    (hholds : env.source.Holds (dir.resolve path) members)
    (hclean : (Document.object members).Clean) (hdistinct : (Document.object members).Distinct) :
    (load env cwd path).outcome = .ok ⟨members, [], [dir.resolve path]⟩ := by
  have htree : env.source.tree (.top (dir.resolve path)) (.object members) = .ok _ :=
    Source.tree_of_clean hclean hdistinct rfl
  rw [Marked.ofDocument] at htree
  obtain ⟨_, ⟨⟩, htree⟩ := Source.tree_object_eq_ok_iff.1 htree
  refine load_eq_ok_iff.2 ⟨hpath, dir, hdir, members, _, hholds, htree, ?_⟩
  rw [Marked.plainMembers_ofMembers, Marked.memberPaths_ofMembers,
    Source.visited_eq_walk hholds htree (Source.walks_of_clean hclean hdistinct _)]
  rfl

/-! ### The command -/

/-- A request to print what can be loaded prints it. -/
theorem run_of_load {env : Environment} {dir : FilePath} {path : String} {loaded : Loaded}
    {arguments : List String} {options : CommandLine.Options}
    (hdir : env.workingDirectory = .ok dir) (hload : (load env dir.text path).outcome = .ok loaded)
    (hrequest : CommandLine.Request.ofArguments arguments = .print options path) :
    CommandLine.run env arguments =
      ⟨0, options.render (options.selected loaded), "", (load env dir.text path).reads⟩ := by
  rw [CommandLine.run, hrequest]
  dsimp only
  rw [CommandLine.print, hdir]
  dsimp only
  rw [hload]

/-- The public subset is a member of the whole that is printed. -/
theorem child?_combined (loaded : Loaded) :
    loaded.combined.child? (.key Directive.publicKey) = some loaded.publicSubset := by
  rw [Loaded.combined, Document.child?, Members.get?_put, if_pos rfl]

/-- **What the command prints can be loaded back.** When a configuration without doubles can be
loaded, every output of the command is the text of exactly the document that was to be printed,
whatever the layout; and the public subset that it prints is what the whole that it prints has as
its public block. And every object without doubles and reserved keys, written in either layout, is a
root file that is loaded as this object, with nothing public and no other file. -/
theorem output_loads_back :
    (∀ (env : Environment) (dir : FilePath) (path : String) (loaded : Loaded),
      env.workingDirectory = .ok dir → (load env dir.text path).outcome = .ok loaded →
      loaded.config.Integral →
      (∀ arguments options, CommandLine.Request.ofArguments arguments = .print options path →
        (CommandLine.run env arguments).exit = 0 ∧
        parse (CommandLine.run env arguments).stdout = .ok (options.selected loaded)) ∧
      (∀ arguments options arguments' options',
        CommandLine.Request.ofArguments arguments = .print options path →
        CommandLine.Request.ofArguments arguments' = .print options' path →
        options.publicOnly = options'.publicOnly →
        parse (CommandLine.run env arguments).stdout =
          parse (CommandLine.run env arguments').stdout) ∧
      ∀ arguments options arguments' options',
        CommandLine.Request.ofArguments arguments = .print options path →
        CommandLine.Request.ofArguments arguments' = .print options' path →
        options.publicOnly = false → options'.publicOnly = true →
        ∃ full shown, parse (CommandLine.run env arguments).stdout = .ok full ∧
          parse (CommandLine.run env arguments').stdout = .ok shown ∧
          full.child? (.key Directive.publicKey) = some shown) ∧
    ∀ (env : Environment) (cwd path text : String) (dir : FilePath) (members : Members Document),
      (object members).Integral → (object members).Distinct → (object members).Clean →
      path ≠ "" → env.directory cwd = .ok dir → env.source.answer (dir.resolve path) 0 = .ok text →
      text = (object members).compact ∨ text = (object members).pretty →
      ∃ loaded, (load env cwd path).outcome = .ok loaded ∧ loaded.config = .object members ∧
        loaded.publicSubset = .object [] ∧ loaded.publicPaths = [] ∧
        loaded.files = [dir.resolve path] := by
  refine ⟨fun env dir path loaded hdir hload hintegral => ?_,
    fun env cwd path text dir members hintegral hdistinct hclean hpath hdir htext hprinted => ?_⟩
  · have hprints (arguments : List String) (options : CommandLine.Options)
        (hrequest : CommandLine.Request.ofArguments arguments = .print options path) :
        (CommandLine.run env arguments).exit = 0 ∧
          parse (CommandLine.run env arguments).stdout = .ok (options.selected loaded) := by
      rw [run_of_load hdir hload hrequest]
      exact ⟨rfl, parse_render hload hintegral options⟩
    refine ⟨hprints, fun arguments options arguments' options' hrequest hrequest' hsame => ?_,
      fun arguments options arguments' options' hrequest hrequest' hfull hpublic => ?_⟩
    · rw [(hprints _ _ hrequest).2, (hprints _ _ hrequest').2, CommandLine.Options.selected,
        CommandLine.Options.selected, hsame]
    · refine ⟨_, _, (hprints _ _ hrequest).2, (hprints _ _ hrequest').2, ?_⟩
      rw [CommandLine.Options.selected, CommandLine.Options.selected, hfull, hpublic]
      exact child?_combined loaded
  · have hparse : parse text = .ok (.object members) := by
      have hwrite (layout : Layout) :=
        parse_write layout hintegral hdistinct (Or.inl (rfl : ([] : List Char) = []))
      simp only [List.append_nil] at hwrite
      rcases hprinted with rfl | rfl
      · exact hwrite .compact
      · exact hwrite (.lines 2)
    exact ⟨_, load_of_clean hpath hdir ⟨text, htext, hparse⟩ hclean hdistinct, rfl, rfl, rfl, rfl⟩

/-- A negative number. -/
def minusOne : Document := .scalar (.number (.integer ⟨-1, by omega⟩))

set_option maxRecDepth 4000 in
/-- A public member is printed as a member and in the public block, and both can be read back. The
same member without its mark is a root file that is loaded as it is. -/
theorem output_of_public_member :
    (∃ full shown, parse (CommandLine.run (MemoryFiles.ofDocuments
        [("/a", .object [("k#public", minusOne)])]).environment ["--compact", "a"]).stdout =
        .ok full ∧
      parse (CommandLine.run (MemoryFiles.ofDocuments
        [("/a", .object [("k#public", minusOne)])]).environment ["a", "--public"]).stdout =
        .ok shown ∧
      full.child? (.key "#public") = some shown) ∧
    ∃ loaded, (load (MemoryFiles.ofDocuments [("/a", .object [("k", minusOne)])]).environment
        "/" "a").outcome = .ok loaded ∧
      loaded.config = .object [("k", minusOne)] ∧ loaded.publicPaths = [] := by
  let files (key : String) : MemoryFiles := .ofDocuments [("/a", .object [(key, minusOne)])]
  let members : Members Document := [("k", minusOne)]
  have hload : (load (files "k#public").environment FilePath.root.text "a").outcome =
      .ok ⟨members, [[.key "k"]], [FilePath.root.resolve "a"]⟩ := by cbv
  have hintegral : (Document.object members).Integral :=
    integral_object (List.forall_mem_singleton.2 (integral_scalar (by simp)))
  have hdistinct : (Document.object members).Distinct := ⟨List.nodup_singleton _, trivial, trivial⟩
  have hclean : (Document.object members).Clean :=
    clean_object (by decide) (List.forall_mem_singleton.2 (clean_scalar _))
  obtain ⟨hprinted, hloaded⟩ := output_loads_back
  obtain ⟨-, -, hpublic⟩ := hprinted _ _ _ _ rfl hload hintegral
  obtain ⟨loaded, hload', hconfig, -, hpaths, -⟩ := hloaded (files "k").environment "/" "a" _ .root
    members hintegral hdistinct hclean (by decide) (by cbv) rfl (Or.inl rfl)
  exact ⟨hpublic _ ⟨false, true⟩ _ ⟨true, false⟩ (by decide) (by decide) rfl rfl, loaded, hload',
    hconfig, hpaths⟩

end ConfigTree
