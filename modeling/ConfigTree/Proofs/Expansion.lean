import ConfigTree.Load.Expansion
import ConfigTree.Proofs.Directive
import ConfigTree.Proofs.Steady

/-!
# Expansions are steady

Expanding directives is a computation on a load, and a steady one
(`ConfigTree.Load.steady_expansion`): whatever was read before, it gives the same tree and
visits the same files. That is a property of computations which is kept in sequence, and every
such property holds of an expansion if it holds of the single steps
(`ConfigTree.Load.Compositional.expansion`). The proof follows the recursion of the five
functions that expand, through their bodies as sequences of steps; for an object that sequence
is `ConfigTree.Load.expandObject_eq`, one step for each of the three trees that are merged. It is
made for properties that also count the files which are still to be entered
(`ConfigTree.Load.Counting`).
-/

namespace ConfigTree

/-- The file that is being expanded is the last of its chain. -/
theorem Scope.file_mem_chain (scope : Scope) : scope.file ∈ scope.chain := by
  simp [Scope.chain]

namespace Load

variable {source : Source}

/-! ### The parts of an object, as computations -/

/-- Expands the files that an object includes. -/
def expandIncluded (scope : Scope) (members : Members Document) :
    Load source (Members (Bool × Marked)) :=
  match members.get? Directive.includeKey with
  | none => pure []
  | some value => do
    reportIncludes scope value
    expandIncludes scope (Directive.includedTexts value) []

/-- Expands the public block of an object. -/
def expandBlock (scope : Scope) (members : Members Document) :
    Load source (Members (Bool × Marked)) :=
  match members.get? Directive.publicKey with
  | none => pure []
  | some (.object block) => expandObject scope.inBlock block
  | some _ => throw (.invalidPublicBlock scope.file (scope.place.key Directive.publicKey))

theorem expandObject_eq (scope : Scope) (members : Members Document) :
    (expandObject scope members : Load source _) = (do
      let included ← expandIncluded scope members
      let block ← expandBlock scope members
      let own ← expandMembers scope [] (Directive.ordinary members)
      return Marked.mergeMembers (Marked.mergeMembers included block) own) := by
  rw [expandObject, expandIncluded, expandBlock]
  split <;> split <;> simp [*]

theorem expandMembers_cons (scope : Scope) (taken : List String) (key : String)
    (value : Document) (rest : Members Document) :
    (expandMembers scope taken ((key, value) :: rest) : Load source _) =
      if Directive.name key ∈ taken then
        throw (.keyCollision scope.file (scope.place.key (Directive.name key)) (Directive.name key))
      else do
        let node ← expand (scope.member (Directive.name key)) value
        let others ← expandMembers scope (Directive.name key :: taken) rest
        return (Directive.name key, Directive.isMarked key || scope.isPublic, node) :: others := by
  rw [expandMembers, Directive.memberName_eq]
  dsimp only
  split <;> rfl

/-! ### Expansions are steady -/

/-- What is reported of an include member. -/
def reported (scope : Scope) (value : Document) : List Event :=
  (Directive.ignoredItems value).map (.ignoredItem scope.file scope.place) ++
    (if Directive.isUnsupported value then [.ignoredInclude scope.file scope.place value]
      else []) ++
    [.includesFound scope.file (Directive.includedTexts value).length]

/-- Reporting event after event appends them to the log. -/
theorem forIn_emit {α : Type} (event : α → Event) (items : List α) (progress : Progress source) :
    forIn items PUnit.unit (fun item _ => do
      emit (event item)
      return ForInStep.yield PUnit.unit : α → PUnit → Load source _) progress =
      .ok PUnit.unit { progress with log := progress.log ++ (items.map event).toArray } := by
  induction items generalizing progress with
  | nil => simp [pure, EStateM.pure]
  | cons item items ih =>
    rw [List.forIn_cons]
    refine (ih { progress with log := progress.log.push (event item) }).trans ?_
    simp

/-- **An include member is reported** in the log and nowhere else. -/
theorem reportIncludes_eq (scope : Scope) (value : Document) (progress : Progress source) :
    reportIncludes scope value progress =
      .ok () { progress with log := progress.log ++ (reported scope value).toArray } := by
  have hitems := forIn_emit (.ignoredItem scope.file scope.place) (Directive.ignoredItems value)
    progress
  rw [reportIncludes, bind_of_ok hitems]
  cases h : Directive.isUnsupported value
  · simp [reported, h, emit_eq]
  · simp [reported, h, emit_eq]

theorem steady_reportIncludes (scope : Scope) (value : Document) :
    Steady (reportIncludes scope value : Load source Unit) :=
  steady_of_log (· ++ (reported scope value).toArray) (reportIncludes_eq scope value)

theorem outcome_reportIncludes (scope : Scope) (value : Document) :
    outcome (reportIncludes scope value : Load source Unit) = .ok () := by
  rw [outcome, result, reportIncludes_eq]

/-- **The errors that an expansion raises itself**, while it expands the files of this chain. A
cycle is reported with the chain and ends at a file on it; any other fault is one in a file on
it. -/
inductive Raised (chain : List FilePath) : LoadError → Prop
  | cycle {again : FilePath} : again ∈ chain → Raised chain (.cycle again chain)
  | block {file : FilePath} {place : ValuePath} : file ∈ chain →
      Raised chain (.invalidPublicBlock file place)
  | collision {file : FilePath} {place : ValuePath} {key : String} : file ∈ chain →
      Raised chain (.keyCollision file place key)

/-- **Compositional properties** of computations: those of the steps that an expansion consists
of, as long as they are kept when steps are put in sequence. A property may depend on the chain
of the files that are being expanded; between entering a file and leaving it, the chain is longer
by that file. -/
structure Compositional (P : List FilePath → ∀ α : Type, Load source α → Prop) : Prop where
  pure : ∀ chain {α : Type} (a : α), P chain α (pure a)
  throw : ∀ chain {α : Type} (e : LoadError), Raised chain e → P chain α (throw e)
  report : ∀ chain {load : Load source Unit} (log : Array Event → Array Event),
    (∀ progress, load progress = .ok () { progress with log := log progress.log }) →
    P chain Unit load
  bind : ∀ chain {α β : Type} {load : Load source α} {next : α → Load source β},
    P chain α load → (∀ a, P chain β (next a)) → P chain β (load >>= next)
  enter : ∀ chain {α β : Type} {path : FilePath}
    {inner : source.Fetched path (Members Document) → Load source α} {next : α → Load source β},
    (∀ file, P (chain ++ [path]) α (inner file)) → (∀ a, P chain β (next a)) →
    P chain β (fetchMembers path >>= fun file => inner file >>= next)

/-- **Compositional properties with a count**: the number of files that were announced before and
still have to be entered. A report of an include member announces as many as it names, and each of
them is entered in turn. -/
structure Counting (P : List FilePath → Nat → ∀ α : Type, Load source α → Prop) : Prop where
  pure : ∀ chain {α : Type} (a : α), P chain 0 α (pure a)
  throw : ∀ chain due {α : Type} (e : LoadError), Raised chain e → P chain due α (throw e)
  bind : ∀ chain {α β : Type} {load : Load source α} {next : α → Load source β},
    P chain 0 α load → (∀ a, P chain 0 β (next a)) → P chain 0 β (load >>= next)
  announce : ∀ (scope : Scope) (value : Document) {α : Type} {next : Load source α},
    P scope.chain (Directive.includedTexts value).length α next →
    P scope.chain 0 α (reportIncludes scope value >>= fun _ => next)
  enter : ∀ (scope : Scope) due {α β : Type} {path : FilePath}
    {inner : source.Fetched path (Members Document) → Load source α} {next : α → Load source β},
    (∀ file, P (scope.chain ++ [path]) 0 α (inner file)) → (∀ a, P scope.chain due β (next a)) →
    P scope.chain (due + 1) β (emit (.including scope.file path) >>= fun _ =>
      fetchMembers path >>= fun file => inner file >>= next)

section Counting

variable {P : List FilePath → Nat → ∀ α : Type, Load source α → Prop}

/-- An object has a compositional property when its three parts have. -/
theorem Counting.object (h : Counting P) {scope : Scope} {members : Members Document}
    (hincluded : P scope.chain 0 _ (expandIncluded scope members))
    (hblock : ∀ block, members.get? Directive.publicKey = some (.object block) →
      P scope.inBlock.chain 0 _ (expandObject scope.inBlock block))
    (hown : P scope.chain 0 _ (expandMembers scope [] (Directive.ordinary members))) :
    P scope.chain 0 _ (expandObject scope members) := by
  have hpublic : P scope.chain 0 _ (expandBlock scope members) := by
    rw [expandBlock]
    split
    · exact h.pure _ _
    · exact hblock _ ‹_›
    · exact h.throw _ _ _ (.block scope.file_mem_chain)
  rw [expandObject_eq]
  exact h.bind _ hincluded fun _ => h.bind _ hpublic fun _ => h.bind _ hown fun _ => h.pure _ _

/-- **A property with a count holds of every expansion**, of all five functions together along
their recursion. What is left of a list of texts is what still has to be entered. -/
theorem Counting.expansion (h : Counting P) :
    (∀ scope members, P scope.chain 0 _ (expandObject scope members)) ∧
      (∀ scope texts merged, P scope.chain texts.length _ (expandIncludes scope texts merged)) ∧
      (∀ scope taken members, P scope.chain 0 _ (expandMembers scope taken members)) ∧
      (∀ scope d, P scope.chain 0 _ (expand scope d)) ∧
      ∀ scope i items, P scope.chain 0 _ (expandItems scope i items) := by
  refine @expandObject.mutual_induct source _ _ _ _ _ ?_ ?_ ?_ ?_ ?_ ?_ ?_ ?_ ?_ ?_ ?_ ?_ ?_
  · intro scope members hnone hown hblock
    refine h.object ?_ hblock hown
    rw [expandIncluded, hnone]
    exact h.pure _ _
  · intro scope members value hsome hown hblock hincludes
    refine h.object ?_ hblock hown
    rw [expandIncluded, hsome]
    exact h.announce scope value hincludes
  · intro scope merged
    rw [expandIncludes]
    exact h.pure _ _
  · intro scope text rest merged path hchain
    rw [expandIncludes, dif_pos hchain]
    exact h.throw _ _ _ (.cycle hchain)
  · intro scope text rest merged path hchain hfile hrest
    rw [expandIncludes, dif_neg hchain]
    exact h.enter scope rest.length hfile hrest
  · intro scope taken
    rw [expandMembers]
    exact h.pure _ _
  · intro scope taken key value rest name marked hname htaken _ _
    obtain rfl : Directive.name key = name := congrArg Prod.fst hname
    rw [expandMembers_cons, if_pos htaken]
    exact h.throw _ _ _ (.collision scope.file_mem_chain)
  · intro scope taken key value rest name marked hname htaken hvalue hrest
    obtain rfl : Directive.name key = name := congrArg Prod.fst hname
    rw [expandMembers_cons, if_neg htaken]
    exact h.bind _ hvalue fun _ => h.bind _ hrest fun _ => h.pure _ _
  · intro scope s
    rw [expand]
    exact h.pure _ _
  · intro scope items hitems
    rw [expand]
    exact h.bind _ hitems fun _ => h.pure _ _
  · intro scope members hmembers
    rw [expand]
    exact h.bind _ hmembers fun _ => h.pure _ _
  · intro scope i
    rw [expandItems]
    exact h.pure _ _
  · intro scope i item rest hitem hrest
    rw [expandItems]
    exact h.bind _ hitem fun _ => h.bind _ hrest fun _ => h.pure _ _

end Counting

/-- Without its count, a compositional property is one with a count. -/
theorem Compositional.counting {P : List FilePath → ∀ α : Type, Load source α → Prop}
    (h : Compositional P) : Counting fun chain _ => P chain where
  pure chain := h.pure chain
  throw chain _ := h.throw chain
  bind chain := h.bind chain
  announce scope value _ _ hnext :=
    h.bind _ (h.report _ (· ++ (reported scope value).toArray) (reportIncludes_eq scope value))
      fun _ => hnext
  enter _ _ _ _ _ _ _ hinner hnext :=
    h.bind _ (h.report _ (·.push _) fun _ => rfl) fun _ => h.enter _ hinner hnext

/-- **A compositional property holds of every expansion.** -/
theorem Compositional.expansion {P : List FilePath → ∀ α : Type, Load source α → Prop}
    (h : Compositional P) :
    (∀ scope members, P scope.chain _ (expandObject scope members)) ∧
      (∀ scope texts merged, P scope.chain _ (expandIncludes scope texts merged)) ∧
      (∀ scope taken members, P scope.chain _ (expandMembers scope taken members)) ∧
      (∀ scope d, P scope.chain _ (expand scope d)) ∧
      ∀ scope i items, P scope.chain _ (expandItems scope i items) :=
  h.counting.expansion

theorem compositional_steady : Compositional fun _ α (load : Load source α) => Steady load where
  pure _ _ a := steady_pure a
  throw _ _ e _ := steady_throw e
  report _ _ log hlog := steady_of_log log hlog
  bind _ _ _ _ _ hload hnext := hload.bind hnext
  enter _ _ _ path _ _ hinner hnext :=
    (steady_fetchMembers path).bind fun file => (hinner file).bind hnext

/-- **Expansions are steady.** -/
theorem steady_expansion :
    (∀ scope members, Steady (expandObject scope members : Load source _)) ∧
      (∀ scope texts merged, Steady (expandIncludes scope texts merged : Load source _)) ∧
      (∀ scope taken members, Steady (expandMembers scope taken members : Load source _)) ∧
      (∀ scope d, Steady (expand scope d : Load source _)) ∧
      ∀ scope i items, Steady (expandItems scope i items : Load source _) :=
  compositional_steady.expansion

theorem steady_expandObject (scope : Scope) (members : Members Document) :
    Steady (expandObject scope members : Load source _) := steady_expansion.1 scope members

theorem steady_expandIncludes (scope : Scope) (texts : List String)
    (merged : Members (Bool × Marked)) :
    Steady (expandIncludes scope texts merged : Load source _) :=
  steady_expansion.2.1 scope texts merged

theorem steady_expandMembers (scope : Scope) (taken : List String) (members : Members Document) :
    Steady (expandMembers scope taken members : Load source _) :=
  steady_expansion.2.2.1 scope taken members

theorem steady_expand (scope : Scope) (d : Document) : Steady (expand scope d : Load source _) :=
  steady_expansion.2.2.2.1 scope d

theorem steady_expandItems (scope : Scope) (i : Nat) (items : List Document) :
    Steady (expandItems scope i items : Load source _) := steady_expansion.2.2.2.2 scope i items

theorem steady_expandIncluded (scope : Scope) (members : Members Document) :
    Steady (expandIncluded scope members : Load source _) := by
  rw [expandIncluded]
  split
  · exact steady_pure _
  · exact (steady_reportIncludes scope _).bind fun _ => steady_expandIncludes _ _ _

theorem steady_expandBlock (scope : Scope) (members : Members Document) :
    Steady (expandBlock scope members : Load source _) := by
  rw [expandBlock]
  split
  · exact steady_pure _
  · exact steady_expandObject _ _
  · exact steady_throw _

/-! ### What is left of an expansion -/

theorem steady_restItems (scope : Scope) (i : Nat) (rest : List Document) (node : Marked) :
    Steady (do return node :: (← expandItems scope i rest) : Load source (List Marked)) :=
  (steady_expandItems _ _ _).bind fun _ => steady_pure _

theorem steady_restMembers (scope : Scope) (taken : List String) (rest : Members Document)
    (entry : String × Bool × Marked) :
    Steady (do return entry :: (← expandMembers scope taken rest) : Load source (Members _)) :=
  (steady_expandMembers _ _ _).bind fun _ => steady_pure _

theorem steady_restIncludes (scope : Scope) (rest : List String) (merged : Members (Bool × Marked))
    {path : FilePath} (file : source.Fetched path (Members Document)) :
    Steady (do
      let tree ← expandObject (scope.enter path) file.value
      expandIncludes scope rest (Marked.mergeMembers merged tree) : Load source _) :=
  (steady_expandObject _ _).bind fun _ => steady_expandIncludes _ _ _

theorem steady_restObject (scope : Scope) (members : Members Document)
    (merged : Members (Bool × Marked)) :
    Steady (do
      let own ← expandMembers scope [] members
      return Marked.mergeMembers merged own : Load source _) :=
  (steady_expandMembers _ _ _).bind fun _ => steady_pure _

end Load

end ConfigTree
