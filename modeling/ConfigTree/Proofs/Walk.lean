import ConfigTree.MemoryFiles
import ConfigTree.Proofs.Faults
import ConfigTree.Proofs.Reads

/-!
# The order in which files are read

The include graph is walked depth first, object by object: first the files that an object
includes, in their order and each followed at once by the walk of its contents, then its public
block, then its other members, an array item by item (`ConfigTree.Source.Walks`). This walk
remembers nothing, so it lists a file as often as it comes to it.

A load comes to the same files in the same order, but it visits each of them only the first time
(`ConfigTree.Source.exists_walk`). So the files of a configuration are the root file and the walk
from there, without repetitions, and that is every file that can be reached from the root file
(`ConfigTree.files_eq_walk`).
-/

namespace ConfigTree

open Relation

/-! ### The items of an include member -/

namespace Directive

/-- **The items of an include member**: those of a list, or its value as the only one. -/
def includeItems (members : Members Document) : List Document :=
  match members.get? includeKey with
  | none => []
  | some (.array items) => items
  | some value => [value]

/-- The files that items name: those of the strings, unless they are empty. -/
def namedTexts (items : List Document) : List String :=
  (items.filterMap string?).filter (· ≠ "")

/-- The files that an object includes are named by the items of its include member. -/
theorem texts_eq (members : Members Document) :
    texts members = namedTexts (includeItems members) := by
  rw [texts, includeItems, namedTexts]
  rcases members.get? includeKey with _ | s | items | inner
  · rfl
  · rcases h : string? (.scalar s) with _ | text <;> simp [includedTexts, h]
  · simp [includedTexts]
  · simp [includedTexts, string?]

theorem mem_namedTexts {items : List Document} {text : String} :
    text ∈ namedTexts items ↔ text ≠ "" ∧ .scalar (.string text) ∈ items := by
  rw [namedTexts, List.mem_filter, List.mem_filterMap]
  simp [string?_eq_some_iff, and_comm]

/-- An item that names no file: it is no string, or the empty one. -/
def NamesNothing (item : Document) : Prop := ∀ text, text ≠ "" → item ≠ .scalar (.string text)

theorem namedTexts_cons_string {text : String} (h : text ≠ "") (items : List Document) :
    namedTexts (.scalar (.string text) :: items) = text :: namedTexts items := by
  simp [namedTexts, string?, h]

theorem namedTexts_cons_nothing {item : Document} (h : NamesNothing item)
    (items : List Document) : namedTexts (item :: items) = namedTexts items := by
  rw [namedTexts, namedTexts]
  rcases hstring : string? item with _ | text
  · rw [List.filterMap_cons_none hstring]
  · have hempty : text = "" := by
      by_contra htext
      exact h text htext (string?_eq_some_iff.1 hstring)
    rw [List.filterMap_cons_some hstring, List.filter_cons_of_neg (by simpa using hempty)]

end Directive

namespace Source

/-! ### The walk -/

mutual

/-- **The walk from a document** of a file: the files that are come to, in their order. -/
inductive Walks (source : Source) : FilePath → Document → List FilePath → Prop
  | scalar {file : FilePath} (s : Scalar) : Walks source file (.scalar s) []
  | array {file : FilePath} {items : List Document} {walk : List FilePath} :
      WalksAll source file items walk → Walks source file (.array items) walk
  /-- What an object includes comes first, then its public block, then its other members. -/
  | object {file : FilePath} {members : Members Document} {included parts : List FilePath} :
      WalksIncluded source file (Directive.includeItems members) included →
      WalksAll source file ((members.get? Directive.publicKey).toList ++
        (Directive.ordinary members).map Prod.snd) parts →
      Walks source file (.object members) (included ++ parts)

/-- The walk from documents of a file, one after the other. -/
inductive WalksAll (source : Source) : FilePath → List Document → List FilePath → Prop
  | nil {file : FilePath} : WalksAll source file [] []
  | cons {file : FilePath} {d : Document} {rest : List Document} {walk more : List FilePath} :
      Walks source file d walk → WalksAll source file rest more →
      WalksAll source file (d :: rest) (walk ++ more)

/-- The walk from the items of an include member of a file, one after the other. -/
inductive WalksIncluded (source : Source) : FilePath → List Document → List FilePath → Prop
  | nil {file : FilePath} : WalksIncluded source file [] []
  | skipped {file : FilePath} {item : Document} {rest : List Document} {walk : List FilePath} :
      Directive.NamesNothing item → WalksIncluded source file rest walk →
      WalksIncluded source file (item :: rest) walk
  /-- An included file is followed at once by the walk of its contents. -/
  | entered {file : FilePath} {text : String} {rest : List Document}
      {contents : Members Document} {below more : List FilePath} : text ≠ "" →
      source.Holds (file.parent.resolve text) contents →
      Walks source (file.parent.resolve text) (.object contents) below →
      WalksIncluded source file rest more →
      WalksIncluded source file (.scalar (.string text) :: rest)
        (file.parent.resolve text :: below ++ more)

end

variable {source : Source} {scope : Scope}

mutual

/-- **There is only one walk** from a document. -/
theorem Walks.unique {file : FilePath} {d : Document} {walk : List FilePath} :
    source.Walks file d walk → ∀ other, source.Walks file d other → other = walk
  | .scalar _, _, .scalar _ => rfl
  | .array h, _, .array h' => h.unique _ h'
  | .object hincluded hparts, _, .object hincluded' hparts' => by
    rw [hincluded.unique _ hincluded', hparts.unique _ hparts']

theorem WalksAll.unique {file : FilePath} {ds : List Document} {walk : List FilePath} :
    source.WalksAll file ds walk → ∀ other, source.WalksAll file ds other → other = walk
  | .nil, _, .nil => rfl
  | .cons h hrest, _, .cons h' hrest' => by rw [h.unique _ h', hrest.unique _ hrest']

theorem WalksIncluded.unique {file : FilePath} {items : List Document} {walk : List FilePath} :
    source.WalksIncluded file items walk → ∀ other, source.WalksIncluded file items other →
      other = walk
  | .nil, _, .nil => rfl
  | .skipped _ hrest, _, .skipped _ hrest' => hrest.unique _ hrest'
  | .skipped hnothing _, _, .entered htext _ _ _ => absurd rfl (hnothing _ htext)
  | .entered htext _ _ _, _, .skipped hnothing _ => absurd rfl (hnothing _ htext)
  | .entered _ hholds hbelow hrest, _, .entered _ hholds' hbelow' hrest' => by
    obtain rfl := hholds.unique hholds'
    rw [hbelow.unique _ hbelow', hrest.unique _ hrest']

end

/-- The walk of an object without directives. -/
theorem Walks.of_plain {file : FilePath} {members : Members Document} {walk : List FilePath}
    (hinclude : members.get? Directive.includeKey = none)
    (hpublic : members.get? Directive.publicKey = none)
    (h : source.WalksAll file (members.map Prod.snd) walk) :
    source.Walks file (.object members) walk := by
  have hincluded : source.WalksIncluded file (Directive.includeItems members) [] := by
    rw [Directive.includeItems, hinclude]
    exact .nil
  refine .object hincluded ?_
  rwa [hpublic, Directive.ordinary_eq_self hinclude hpublic]

/-- The walk from an item that names this file. -/
theorem WalksIncluded.enter {file target : FilePath} {text : String}
    {rest : List Document} {contents : Members Document} {below more : List FilePath}
    (htext : text ≠ "") (htarget : file.parent.resolve text = target)
    (hholds : source.Holds target contents)
    (hbelow : source.Walks target (.object contents) below)
    (hrest : source.WalksIncluded file rest more) :
    source.WalksIncluded file (.scalar (.string text) :: rest) (target :: below ++ more) :=
  htarget ▸ .entered htext (htarget ▸ hholds) (htarget ▸ hbelow) hrest

theorem WalksAll.append {file : FilePath} {ds more : List Document} {walk walk' : List FilePath}
    (h : source.WalksAll file ds walk) (h' : source.WalksAll file more walk') :
    source.WalksAll file (ds ++ more) (walk ++ walk') := by
  induction ds generalizing walk with
  | nil =>
    cases h
    exact h'
  | cons d ds ih =>
    cases h with
    | cons hd hds =>
      rw [List.append_assoc]
      exact .cons hd (ih hds)

/-! ### The walk and the files that are reached -/

open Document

mutual

/-- **A walk comes only to files that are reached** from its own. -/
theorem Walks.reaches {file path : FilePath} {d : Document} {walk : List FilePath}
    {contents : Members Document} : source.Walks file d walk → source.Holds file contents →
      Live (.object contents) d → path ∈ walk → source.Reaches file path
  | .scalar _, _, _, hpath => absurd hpath List.not_mem_nil
  | .array h, hholds, hlive, hpath => h.reaches hholds (fun _ hmem => hlive.item hmem) hpath
  | @Walks.object _ _ members _ _ hincluded hparts, hholds, hlive, hpath => by
    rcases List.mem_append.1 hpath with hpath | hpath
    · refine hincluded.reaches (fun text htext hitem => ?_) hpath
      have hedge : source.Edge (Scope.top file).file ((Scope.top file).target text) :=
        edge_of_mem_texts hholds hlive
          (Directive.texts_eq members ▸ Directive.mem_namedTexts.2 ⟨htext, hitem⟩)
      exact hedge
    · refine hparts.reaches hholds (fun part hpart => ?_) hpath
      rcases List.mem_append.1 hpart with hpart | hpart
      · exact hlive.block (Option.mem_toList.1 hpart)
      · obtain ⟨member, hmember, rfl⟩ := List.mem_map.1 hpart
        obtain ⟨hmem, hinclude, hpublic⟩ := Directive.mem_ordinary.1 hmember
        exact hlive.member hmem hinclude hpublic

theorem WalksAll.reaches {file path : FilePath} {ds : List Document} {walk : List FilePath}
    {contents : Members Document} : source.WalksAll file ds walk → source.Holds file contents →
      (∀ d ∈ ds, Live (.object contents) d) → path ∈ walk → source.Reaches file path
  | .nil, _, _, hpath => absurd hpath List.not_mem_nil
  | .cons h hrest, hholds, hlive, hpath => by
    obtain ⟨hfirst, hlater⟩ := List.forall_mem_cons.1 hlive
    rcases List.mem_append.1 hpath with hpath | hpath
    · exact h.reaches hholds hfirst hpath
    · exact hrest.reaches hholds hlater hpath

theorem WalksIncluded.reaches {file path : FilePath} {items : List Document}
    {walk : List FilePath} : source.WalksIncluded file items walk →
      (∀ text, text ≠ "" → .scalar (.string text) ∈ items →
        source.Edge file (file.parent.resolve text)) →
      path ∈ walk → source.Reaches file path
  | .nil, _, hpath => absurd hpath List.not_mem_nil
  | .skipped _ hrest, hedges, hpath =>
    hrest.reaches (fun text htext hitem => hedges text htext (List.mem_cons_of_mem _ hitem)) hpath
  | .entered htext hholds hbelow hrest, hedges, hpath => by
    have hedge := hedges _ htext List.mem_cons_self
    rcases List.mem_append.1 hpath with hpath | hpath
    · rcases List.mem_cons.1 hpath with rfl | hpath
      · exact .single hedge
      · exact .head hedge (hbelow.reaches hholds .root hpath)
    · exact hrest.reaches (fun text htext hitem => hedges text htext (List.mem_cons_of_mem _ hitem))
        hpath

end

theorem WalksAll.of_mem {file : FilePath} {ds : List Document} {walk : List FilePath}
    (h : source.WalksAll file ds walk) {d : Document} (hd : d ∈ ds) :
    ∃ part, source.Walks file d part ∧ part ⊆ walk := by
  induction ds generalizing walk with
  | nil => simp at hd
  | cons first ds ih =>
    cases h with
    | cons hfirst hrest =>
      rcases List.mem_cons.1 hd with rfl | hd
      · exact ⟨_, hfirst, List.subset_append_left _ _⟩
      · obtain ⟨part, hpart, hsub⟩ := ih hrest hd
        exact ⟨part, hpart, fun path hpath => List.mem_append_right _ (hsub hpath)⟩

/-- The file that an item names is come to, and is followed by the walk of its contents. -/
theorem WalksIncluded.of_mem {file : FilePath} {items : List Document} {walk : List FilePath}
    (h : source.WalksIncluded file items walk) {text : String} (htext : text ≠ "")
    (hitem : .scalar (.string text) ∈ items) :
    ∃ contents below, source.Holds (file.parent.resolve text) contents ∧
      source.Walks (file.parent.resolve text) (.object contents) below ∧
      file.parent.resolve text :: below ⊆ walk := by
  induction items generalizing walk with
  | nil => simp at hitem
  | cons item items ih =>
    cases h with
    | skipped hnothing hrest =>
      rcases List.mem_cons.1 hitem with rfl | hitem
      · exact absurd rfl (hnothing text htext)
      · exact ih hrest hitem
    | entered _ hholds hbelow hrest =>
      rcases List.mem_cons.1 hitem with heq | hitem
      · obtain rfl : text = _ := by simpa using heq
        exact ⟨_, _, hholds, hbelow, List.subset_append_left _ _⟩
      · obtain ⟨contents, below, hcontents, hwalk, hsub⟩ := ih hrest hitem
        exact ⟨contents, below, hcontents, hwalk,
          fun path hpath => List.mem_append_right _ (hsub hpath)⟩

/-- The walk from a live part of a document is within the walk from the document. -/
theorem Walks.of_live {file : FilePath} {d part : Document} {walk : List FilePath}
    (h : source.Walks file d walk) (hlive : Live d part) :
    ∃ inner, source.Walks file part inner ∧ inner ⊆ walk := by
  induction hlive with
  | root => exact ⟨walk, h, List.Subset.refl walk⟩
  | @block members d _ hd ih =>
    obtain ⟨inner, hinner, hsub⟩ := ih
    cases hinner with
    | object _ hparts =>
      obtain ⟨part, hpart, hin⟩ :=
        hparts.of_mem (List.mem_append_left _ (Option.mem_toList.2 hd))
      exact ⟨part, hpart, fun path hpath => hsub (List.mem_append_right _ (hin hpath))⟩
  | @member members key d _ hmem hinclude hpublic ih =>
    obtain ⟨inner, hinner, hsub⟩ := ih
    have hmember := Directive.mem_ordinary.2 ⟨hmem, hinclude, hpublic⟩
    cases hinner with
    | object _ hparts =>
      obtain ⟨part, hpart, hin⟩ := hparts.of_mem
        (List.mem_append_right _ (List.mem_map_of_mem hmember))
      exact ⟨part, hpart, fun path hpath => hsub (List.mem_append_right _ (hin hpath))⟩
  | @item items d _ hmem ih =>
    obtain ⟨inner, hinner, hsub⟩ := ih
    cases hinner with
    | array hitems =>
      obtain ⟨part, hpart, hin⟩ := hitems.of_mem hmem
      exact ⟨part, hpart, fun path hpath => hsub (hin hpath)⟩

/-- **A walk comes to every file that is reached** from its own. -/
theorem mem_walk_of_reaches {file path : FilePath} (h : source.Reaches file path)
    {contents : Members Document} {walk : List FilePath} (hholds : source.Holds file contents)
    (hwalk : source.Walks file (.object contents) walk) : path ∈ file :: walk := by
  induction h using ReflTransGen.head_induction_on generalizing contents walk with
  | refl => exact List.mem_cons_self
  | head hedge _ ih =>
    obtain ⟨contents', members, value, text, hholds', hlive, hvalue, hnames, rfl⟩ := hedge
    obtain rfl := hholds.unique hholds'
    obtain ⟨inner, hinner, hsub⟩ := hwalk.of_live hlive
    have htext := Directive.mem_texts.2 ⟨value, hvalue, hnames⟩
    rw [Directive.texts_eq] at htext
    cases hinner with
    | object hincluded _ =>
      obtain ⟨next, below, hnext, hbelow, hin⟩ :=
        hincluded.of_mem hnames.1 (Directive.mem_namedTexts.1 htext).2
      exact List.mem_cons_of_mem _ (hsub (List.mem_append_left _ (hin (ih hnext hbelow))))

theorem mem_walk_iff {file path : FilePath} {contents : Members Document} {walk : List FilePath}
    (hholds : source.Holds file contents) (hwalk : source.Walks file (.object contents) walk) :
    path ∈ file :: walk ↔ source.Reaches file path := by
  refine ⟨fun hpath => ?_, fun h => mem_walk_of_reaches h hholds hwalk⟩
  rcases List.mem_cons.1 hpath with rfl | hpath
  · exact .refl
  · exact hwalk.reaches hholds .root hpath

end Source

/-! ### What a load visits is what it walks -/

namespace Progress

/-- Visited from nothing, a list keeps the first of its repetitions. -/
theorem visitAll_nil_eq_eraseDups (paths : List FilePath) :
    visitAll [] paths = paths.eraseDups := by
  induction paths using List.reverseRecOn with
  | nil => rfl
  | append_singleton paths path ih =>
    rw [visitAll_append, List.eraseDups_append, ih, visitAll_cons, visitAll_nil, visit]
    by_cases h : path ∈ paths
    · simp [List.removeAll, h]
    · simp [List.removeAll, h, List.eraseDups_cons]

end Progress

namespace Load

open Progress

variable {source : Source} {scope : Scope} {α β : Type}

/-- **Walks in sequence**: what is visited by a computation and then another one. -/
theorem visits_bind_eq_visitAll {load : Load source α} {next : α → Load source β} {a : α}
    {walk more : List FilePath} (hload : Steady load) (hnext : ∀ a, Steady (next a))
    (h : outcome load = .ok a) (hwalk : visits load = visitAll [] walk)
    (hmore : visits (next a) = visitAll [] more) :
    visits (load >>= next) = visitAll [] (walk ++ more) := by
  rw [visits_bind hload (hnext a) h, hwalk, hmore, visitAll_visitAll, visitAll_append]
  rfl

/-- A computation that visits nothing leaves the visits to what follows. -/
theorem visits_bind_silent {load : Load source α} {next : α → Load source β} {a : α}
    (hload : Steady load) (hnext : Steady (next a)) (h : outcome load = .ok a)
    (hsilent : visits load = []) : visits (load >>= next) = visits (next a) := by
  rw [visits_bind hload hnext h, hsilent]
  exact (hnext.reads_eq .start coherent_start).symm

theorem visits_bind_pure {load : Load source α} {f : α → β} {a : α} (hload : Steady load)
    (h : outcome load = .ok a) : visits (load >>= fun a => pure (f a)) = visits load := by
  rw [visits_bind hload (steady_pure (f a)) h]
  rfl

/-- The members of a file that holds them are fetched by one visit. -/
theorem visits_fetchMembers {path : FilePath} {members : Members Document}
    (h : source.Holds path members) : visits (fetchMembers path : Load source _) = [path] := by
  have hfetched : outcome (fetchMembers path : Load source _) = .ok ⟨members, h.readable⟩ :=
    outcome_fetchMembers_eq_ok.2 h
  rw [fetchMembers_eq] at hfetched ⊢
  obtain ⟨file, hfile, -⟩ :=
    (outcome_bind_eq_ok (steady_fetch path) steady_membersIn).1 hfetched
  rw [visits_bind (steady_fetch path) (steady_membersIn file) hfile, visits_fetch]
  obtain ⟨_ | _ | _, _⟩ := file <;> rfl

/-- **The document is walked as its expansion visits files.** -/
def Walked (source : Source) (scope : Scope) (d : Document) : Prop :=
  ∃ walk, source.Walks scope.file d walk ∧
    visits (expand scope d : Load source _) = visitAll [] walk

theorem walk_items {i : Nat} {items : List Document} {nodes : List Marked}
    (h : source.itemTrees scope i items = .ok nodes)
    (hitems : ∀ j item, items[j]? = some item → Walked source (scope.item (i + j)) item) :
    ∃ walk, source.WalksAll scope.file items walk ∧
      visits (expandItems scope i items : Load source _) = visitAll [] walk := by
  induction items generalizing i nodes with
  | nil =>
    refine ⟨[], .nil, ?_⟩
    rw [expandItems]
    rfl
  | cons item rest ih =>
    obtain ⟨node, others, hnode, hothers, -⟩ := Source.itemTrees_cons_eq_ok_iff.1 h
    obtain ⟨walk, hwalk, hvisits⟩ := hitems 0 item rfl
    obtain ⟨more, hmore, hlater⟩ := ih hothers fun j item hitem => by
      rw [show i + 1 + j = i + (j + 1) by omega]
      exact hitems (j + 1) item hitem
    refine ⟨walk ++ more, .cons hwalk hmore, ?_⟩
    rw [expandItems]
    refine visits_bind_eq_visitAll (steady_expand _ _) (steady_restItems _ _ _) hnode hvisits ?_
    exact (visits_bind_pure (steady_expandItems _ _ _) hothers).trans hlater

theorem walk_members {taken : List String} {members : Members Document}
    {own : Members (Bool × Marked)} (h : source.memberTrees scope taken members = .ok own)
    (hmembers : ∀ member ∈ members,
      Walked source (scope.member (Directive.name member.1)) member.2) :
    ∃ walk, source.WalksAll scope.file (members.map Prod.snd) walk ∧
      visits (expandMembers scope taken members : Load source _) = visitAll [] walk := by
  induction members generalizing taken own with
  | nil =>
    refine ⟨[], .nil, ?_⟩
    rw [expandMembers]
    rfl
  | cons member rest ih =>
    obtain ⟨key, value⟩ := member
    obtain ⟨htaken, entry, others, ⟨-, -, hnode⟩, hothers, -⟩ :=
      Source.memberTrees_cons_eq_ok_iff.1 h
    obtain ⟨hfirst, hrest⟩ := List.forall_mem_cons.1 hmembers
    obtain ⟨walk, hwalk, hvisits⟩ := hfirst
    obtain ⟨more, hmore, hlater⟩ := ih hothers hrest
    refine ⟨walk ++ more, .cons hwalk hmore, ?_⟩
    rw [expandMembers_cons, if_neg htaken]
    refine visits_bind_eq_visitAll (steady_expand _ _) (fun _ => steady_restMembers _ _ _ _) hnode
      hvisits ?_
    exact (visits_bind_pure (steady_expandMembers _ _ _) hothers).trans hlater

theorem visits_expand_object {members : Members Document} {tree : Members (Bool × Marked)}
    (h : source.objectTree scope members = .ok tree) :
    visits (expand scope (.object members) : Load source _) =
      visits (expandObject scope members : Load source _) := by
  rw [expand]
  exact visits_bind_pure (steady_expandObject _ _) h

/-- What is reported of an include member visits nothing. -/
theorem visits_expandIncluded (members : Members Document) :
    visits (expandIncluded scope members : Load source _) =
      visits (expandIncludes scope (Directive.texts members) [] : Load source _) := by
  rw [expandIncluded, Directive.texts]
  rcases members.get? Directive.includeKey with _ | value
  · rw [Option.elim_none, expandIncludes]
  · refine visits_bind_silent (steady_reportIncludes scope value)
      (steady_expandIncludes _ _ _) (outcome_reportIncludes scope value) ?_
    rw [visits, after, reportIncludes_eq]
    rfl

theorem walk_block {members : Members Document} {tree : Members (Bool × Marked)}
    (h : source.blockTree scope members = .ok tree)
    (hblock : ∀ block inner, members.get? Directive.publicKey = some (.object block) →
      source.objectTree scope.inBlock block = .ok inner →
      Walked source scope.inBlock (.object block)) :
    ∃ walk, source.WalksAll scope.file (members.get? Directive.publicKey).toList walk ∧
      visits (expandBlock scope members : Load source _) = visitAll [] walk := by
  rcases Source.blockTree_eq_ok_iff.1 h with ⟨hnone, -⟩ | ⟨block, hsome, hinner⟩
  · rw [expandBlock, hnone]
    exact ⟨[], .nil, rfl⟩
  · obtain ⟨walk, hwalk, hvisits⟩ := hblock block tree hsome hinner
    rw [visits_expand_object hinner] at hvisits
    rw [expandBlock, hsome]
    exact ⟨walk ++ [], .cons hwalk .nil, by rwa [List.append_nil]⟩

/-- An included file is visited, and then what its contents visit. -/
theorem visits_expandIncludes_cons {text : String} {texts : List String}
    {merged file : Members (Bool × Marked)} {contents : Members Document}
    {below more : List FilePath} (hnew : scope.target text ∉ scope.chain)
    (hholds : source.Holds (scope.target text) contents)
    (hfile : source.objectTree (scope.enter (scope.target text)) contents = .ok file)
    (hbelow : visits (expandObject (scope.enter (scope.target text)) contents : Load source _) =
      visitAll [] below)
    (hmore : visits (expandIncludes scope texts (Marked.mergeMembers merged file) :
      Load source _) = visitAll [] more) :
    visits (expandIncludes scope (text :: texts) merged : Load source _) =
      visitAll [] (scope.target text :: below ++ more) := by
  have hfetched : outcome (fetchMembers (scope.target text) : Load source _) =
      .ok ⟨contents, hholds.readable⟩ := outcome_fetchMembers_eq_ok.2 hholds
  have hvisited : visits (fetchMembers (scope.target text) : Load source _) =
      visitAll [] [scope.target text] := visits_fetchMembers hholds
  rw [expandIncludes, dif_neg hnew]
  refine (visits_bind_silent (steady_emit _)
    ((steady_fetchMembers _).bind (steady_restIncludes _ _ _)) rfl rfl).trans ?_
  rw [List.cons_append, ← List.singleton_append]
  refine visits_bind_eq_visitAll (steady_fetchMembers _) (steady_restIncludes _ _ _) hfetched
    hvisited ?_
  exact visits_bind_eq_visitAll (steady_expandObject _ _) (fun _ => steady_expandIncludes _ _ _)
    hfile hbelow hmore

/-- The items of an include member are walked as the files that they name are expanded. -/
theorem walk_includes {items : List Document} {merged tree : Members (Bool × Marked)}
    (h : source.includedTree scope (Directive.namedTexts items) merged = .ok tree)
    (hcontents : ∀ text contents inner, scope.target text ∉ scope.chain →
      source.Holds (scope.target text) contents →
      source.objectTree (scope.enter (scope.target text)) contents = .ok inner →
      Walked source (scope.enter (scope.target text)) (.object contents)) :
    ∃ walk, source.WalksIncluded scope.file items walk ∧
      visits (expandIncludes scope (Directive.namedTexts items) merged : Load source _) =
        visitAll [] walk := by
  induction items generalizing merged tree with
  | nil =>
    refine ⟨[], .nil, ?_⟩
    rw [Directive.namedTexts, List.filterMap_nil, List.filter_nil, expandIncludes]
    rfl
  | cons item rest ih =>
    by_cases hitem : Directive.NamesNothing item
    · rw [Directive.namedTexts_cons_nothing hitem] at h ⊢
      obtain ⟨walk, hwalk, hvisits⟩ := ih h
      exact ⟨walk, .skipped hitem hwalk, hvisits⟩
    · obtain ⟨text, htext, rfl⟩ : ∃ text, text ≠ "" ∧ item = .scalar (.string text) := by
        simpa [Directive.NamesNothing] using hitem
      rw [Directive.namedTexts_cons_string htext] at h ⊢
      obtain ⟨file, ⟨hnew, contents, hholds, hfile⟩, hrest⟩ :=
        Source.includedTree_cons_eq_ok_iff.1 h
      obtain ⟨below, hbelow, hvisits⟩ := hcontents text contents file hnew hholds hfile
      obtain ⟨more, hmore, hlater⟩ := ih hrest
      rw [visits_expand_object hfile] at hvisits
      exact ⟨_, .entered htext hholds hbelow hmore,
        visits_expandIncludes_cons hnew hholds hfile hvisits hlater⟩

/-- The walk of an object, from those of its three parts. -/
theorem walk_object {members : Members Document} {tree : Members (Bool × Marked)}
    (h : source.objectTree scope members = .ok tree)
    (hincluded : ∀ text contents inner, scope.target text ∉ scope.chain →
      source.Holds (scope.target text) contents →
      source.objectTree (scope.enter (scope.target text)) contents = .ok inner →
      Walked source (scope.enter (scope.target text)) (.object contents))
    (hblock : ∀ block inner, members.get? Directive.publicKey = some (.object block) →
      source.objectTree scope.inBlock block = .ok inner →
      Walked source scope.inBlock (.object block))
    (hown : ∀ member ∈ Directive.ordinary members,
      Walked source (scope.member (Directive.name member.1)) member.2) :
    Walked source scope (.object members) := by
  obtain ⟨trees, block, own, htrees, hpublic, hnames, hentries, -⟩ :=
    Source.objectTree_eq_ok_iff.1 h
  have hfiles : source.includedTree scope (Directive.texts members) [] =
      .ok (trees.foldl Marked.mergeMembers []) :=
    Source.includedTree_eq_ok_iff.2 ⟨trees, htrees, rfl⟩
  have hmembers : source.memberTrees scope [] (Directive.ordinary members) = .ok own :=
    Source.memberTrees_eq_ok_iff.2 ⟨hnames, fun _ _ => List.not_mem_nil, hentries⟩
  obtain ⟨included, hwalk, hvisits⟩ := walk_includes (Directive.texts_eq members ▸ hfiles) hincluded
  obtain ⟨inside, hinside, hvisits'⟩ := walk_block hpublic hblock
  obtain ⟨rest, hrest, hvisits''⟩ := walk_members hmembers hown
  refine ⟨included ++ (inside ++ rest), .object hwalk (hinside.append hrest), ?_⟩
  rw [visits_expand_object h, expandObject_eq]
  refine visits_bind_eq_visitAll (steady_expandIncluded _ _)
    (fun _ => (steady_expandBlock _ _).bind fun _ => steady_restObject _ _ _)
    ((Source.outcome_expandIncluded scope members).trans hfiles) ?_ ?_
  · rw [visits_expandIncluded, Directive.texts_eq]
    exact hvisits
  · refine visits_bind_eq_visitAll (steady_expandBlock _ _) (fun _ => steady_restObject _ _ _)
      hpublic hvisits' ?_
    exact (visits_bind_pure (steady_expandMembers _ _ _) hmembers).trans hvisits''

end Load

namespace Source

open Load

variable {source : Source} {scope : Scope}

/-- **A successful expansion walks**: it visits the files that the walk comes to, each of them only
the first time. -/
theorem exists_walk {d : Document} {node : Marked} (h : source.tree scope d = .ok node) :
    Walked source scope d := by
  induction scope, d using expansion_induction source generalizing node with
  | scalar scope s =>
    refine ⟨[], .scalar s, ?_⟩
    rw [expand]
    rfl
  | array scope items ih =>
    obtain ⟨nodes, -, hlength, hnodes⟩ := tree_array_eq_ok_iff.1 h
    have hitems : source.itemTrees scope 0 items = .ok nodes := by
      simpa [itemTrees_eq_ok_iff] using And.intro hlength hnodes
    obtain ⟨walk, hwalk, hvisits⟩ := walk_items hitems fun i item hitem => by
      have hi : i < nodes.length := hlength ▸ (List.getElem?_eq_some_iff.1 hitem).1
      rw [Nat.zero_add]
      exact ih i item hitem (hnodes i item _ hitem (List.getElem?_eq_getElem hi))
    refine ⟨walk, .array hwalk, ?_⟩
    rw [expand]
    exact (visits_bind_pure (steady_expandItems _ _ _) hitems).trans hvisits
  | object scope members hincluded hblock hown =>
    obtain ⟨tree, -, htree⟩ := tree_object_eq_ok_iff.1 h
    refine walk_object htree ?_ ?_ ?_
    · exact fun text contents inner hnew hholds hinner =>
        hincluded text contents hnew hholds (tree_object_of_eq_ok hinner)
    · exact fun block inner hsome hinner => hblock block hsome (tree_object_of_eq_ok hinner)
    · intro member hmember
      obtain ⟨-, -, -, hvalues⟩ := expands_object_iff.1 ⟨node, h⟩
      obtain ⟨value, hvalue⟩ := hvalues member hmember
      exact hown member hmember hvalue

/-- The files of a root file are the root file and the walk from it, each listed once. -/
theorem visited_eq_walk {root : FilePath} {contents : Members Document}
    {tree : Members (Bool × Marked)} {walk : List FilePath} (hholds : source.Holds root contents)
    (htree : source.objectTree (.top root) contents = .ok tree)
    (hwalk : source.Walks root (.object contents) walk) :
    source.visited root = (root :: walk).eraseDups := by
  obtain ⟨other, hother, hvisits⟩ := exists_walk (tree_object_of_eq_ok htree)
  obtain rfl := hwalk.unique _ hother
  have hobject (file : source.Fetched root (Members Document)) :
      Steady (expandObject (.top root) file.value : Load source _) := steady_expandObject _ _
  have hfetched : outcome (fetchMembers root : Load source _) = .ok ⟨contents, hholds.readable⟩ :=
    outcome_fetchMembers_eq_ok.2 hholds
  have hroot : visits (fetchMembers root : Load source _) = Progress.visitAll [] [root] :=
    visits_fetchMembers hholds
  rw [visits_expand_object htree] at hvisits
  rw [visited, expandRoot, visits_bind_silent (steady_emit _)
    ((steady_fetchMembers _).bind hobject) rfl rfl, ← Progress.visitAll_nil_eq_eraseDups]
  exact visits_bind_eq_visitAll (steady_fetchMembers _) hobject hfetched hroot hvisits

/-- The files of a root file are those that it reaches. -/
theorem mem_visited_iff {root file : FilePath} {contents : Members Document}
    {tree : Members (Bool × Marked)} (hholds : source.Holds root contents)
    (htree : source.objectTree (.top root) contents = .ok tree) :
    file ∈ source.visited root ↔ source.Reaches root file := by
  obtain ⟨walk, hwalk, -⟩ := exists_walk (tree_object_of_eq_ok htree)
  rw [visited_eq_walk hholds htree hwalk, List.mem_eraseDups]
  exact mem_walk_iff hholds hwalk

end Source

/-- **The files of a configuration** are the root file and the walk from it, each listed where the
walk first comes to it, and these are the files that are reached from the root file. -/
theorem files_eq_walk {env : Environment} {cwd path : String} {loaded : Loaded}
    (h : (load env cwd path).outcome = .ok loaded) :
    ∃ dir contents walk, env.directory cwd = .ok dir ∧
      env.source.Holds (dir.resolve path) contents ∧
      (∀ other, env.source.Walks (dir.resolve path) (.object contents) other ↔ other = walk) ∧
      loaded.files = (dir.resolve path :: walk).eraseDups ∧ loaded.files.Nodup ∧
      ∀ file, file ∈ loaded.files ↔ env.source.Reaches (dir.resolve path) file := by
  obtain ⟨-, dir, hdir, contents, tree, hholds, htree, rfl⟩ := load_eq_ok_iff.1 h
  obtain ⟨walk, hwalk, -⟩ := Source.exists_walk (Source.tree_object_of_eq_ok htree)
  have hfiles : env.source.visited (dir.resolve path) = (dir.resolve path :: walk).eraseDups :=
    Source.visited_eq_walk hholds htree hwalk
  refine ⟨dir, contents, walk, hdir, hholds, fun other => ⟨hwalk.unique other, ?_⟩, hfiles,
    Source.nodup_visited _, fun file => ?_⟩
  · rintro rfl
    exact hwalk
  · dsimp only
    rw [hfiles, List.mem_eraseDups, Source.mem_walk_iff hholds hwalk]

/-- An object that includes one file. -/
def includingObject : Members Document := [("#include", .scalar (.string "b"))]

/-- The root of such a file: what its member includes stands before the file that it includes
itself, together with an item that names none. -/
def includingRoot : Members Document :=
  [("m", .object includingObject), ("#include", .array [.scalar (.string "c"), .scalar .null])]

/-- A file that is included by the root file only after another file that it includes. -/
def walkedFiles : MemoryFiles := .ofDocuments
  [("/a", .object includingRoot), ("/b", .object []), ("/c", .object includingObject)]

theorem walkedFiles_holds :
    walkedFiles.source.Holds (FilePath.root.resolve "a") includingRoot ∧
      walkedFiles.source.Holds (FilePath.root.resolve "b") [] ∧
      walkedFiles.source.Holds (FilePath.root.resolve "c") includingObject :=
  ⟨⟨_, rfl, by cbv⟩, ⟨_, rfl, by cbv⟩, ⟨_, rfl, by cbv⟩⟩

theorem expands_includingObject {scope : Scope}
    (hfile : scope.target "b" = FilePath.root.resolve "b")
    (hnew : FilePath.root.resolve "b" ∉ scope.chain) :
    walkedFiles.source.Expands scope (.object includingObject) := by
  have htexts : Directive.texts includingObject = ["b"] := by decide
  refine Source.expands_object_iff.2 ⟨?_, nofun, List.nodup_nil, nofun⟩
  rw [htexts, List.forall_mem_singleton, hfile]
  exact ⟨hnew, [], walkedFiles_holds.2.1,
    Source.expands_object_iff.2 ⟨nofun, nofun, List.nodup_nil, nofun⟩⟩

theorem walks_includingObject {file : FilePath}
    (hfile : file.parent.resolve "b" = FilePath.root.resolve "b") :
    walkedFiles.source.Walks file (.object includingObject) [FilePath.root.resolve "b"] := by
  have hempty : walkedFiles.source.Walks (FilePath.root.resolve "b") (.object []) ([] ++ []) :=
    .object .nil .nil
  have hincluded : walkedFiles.source.WalksIncluded file (Directive.includeItems includingObject)
      [FilePath.root.resolve "b"] :=
    .enter (by decide) hfile walkedFiles_holds.2.1 hempty .nil
  exact .object hincluded .nil

theorem load_walkedFiles :
    ∃ loaded, (load walkedFiles.environment "/" "a").outcome = .ok loaded := by
  have hexpands : walkedFiles.source.Expands (.top (FilePath.root.resolve "a"))
      (.object includingRoot) := by
    have htexts : Directive.texts includingRoot = ["c"] := by decide
    have hordinary : Directive.ordinary includingRoot = [("m", .object includingObject)] := by
      decide
    have htarget : (Scope.top (FilePath.root.resolve "a")).target "c" =
        FilePath.root.resolve "c" := by cbv
    have hnone : includingRoot.get? Directive.publicKey = none := by decide
    refine Source.expands_object_iff.2 ⟨?_, by simp [hnone], by decide, ?_⟩
    · rw [htexts, List.forall_mem_singleton, htarget]
      exact ⟨by decide, _, walkedFiles_holds.2.2,
        expands_includingObject (by cbv) (by decide)⟩
    · rw [hordinary, List.forall_mem_singleton]
      exact expands_includingObject (by cbv) (by decide)
  obtain ⟨node, hnode⟩ := hexpands
  obtain ⟨tree, -, htree⟩ := Source.tree_object_eq_ok_iff.1 hnode
  exact ⟨_, load_eq_ok_iff.2
    ⟨by decide, .root, by cbv, includingRoot, tree, walkedFiles_holds.1, htree, rfl⟩⟩

/-- The files of such a load stand in the order of the walk, and not in that of the text. -/
theorem files_of_walkedFiles :
    ∃ loaded, (load walkedFiles.environment "/" "a").outcome = .ok loaded ∧
      loaded.files = ["a", "c", "b"].map FilePath.root.resolve := by
  obtain ⟨loaded, hload⟩ := load_walkedFiles
  obtain ⟨dir, contents, walk, hdir, hholds, hwalk, hfiles, -⟩ := files_eq_walk hload
  have hroot : walkedFiles.environment.directory "/" = .ok .root := by cbv
  obtain rfl : dir = .root := Except.ok.inj (hdir.symm.trans hroot)
  obtain rfl := hholds.unique walkedFiles_holds.1
  have hskipped : walkedFiles.source.WalksIncluded (FilePath.root.resolve "a")
      [.scalar .null] [] := .skipped (by simp [Directive.NamesNothing]) .nil
  have hmember : walkedFiles.source.WalksAll (FilePath.root.resolve "a")
      [.object includingObject] [FilePath.root.resolve "b"] :=
    .cons (walks_includingObject (by cbv)) .nil
  have hincluded : walkedFiles.source.WalksIncluded (FilePath.root.resolve "a")
      (Directive.includeItems includingRoot) (["c", "b"].map FilePath.root.resolve) :=
    .enter (by decide) (by cbv) walkedFiles_holds.2.2 (walks_includingObject (by cbv)) hskipped
  obtain rfl := (hwalk _).1 (.object hincluded hmember)
  refine ⟨loaded, hload, hfiles.trans ?_⟩
  decide

end ConfigTree
