import ConfigTree.Proofs.Expansion
import ConfigTree.Proofs.Merge

/-!
# The calls of an expansion

The recursion of an expansion, opened up. What is expanded is a file or a document in it
(`ConfigTree.Load.perform`), and the body of that recursion can be written with a parameter for the
recursive calls (`ConfigTree.Load.bodyWith`). Expanding is a solution of this equation
(`ConfigTree.Load.bodyWith_perform`).

Which calls a call makes depends on what those before it came to: a list of items is left where one
of them fails. So a call is taken together with the progress that it starts from
(`ConfigTree.Call`), and the calls that it makes are found along its own run
(`ConfigTree.Call.Makes`). They are all that it makes: what a call comes to does not depend on what
the parameter does anywhere else (`ConfigTree.Call.bodyWith_eq_run`).
-/

namespace ConfigTree

/-- What is expanded. -/
inductive Subject
  /-- The file of a scope. -/
  | file
  /-- A document in that file. -/
  | document (d : Document)

/-- **A call of the recursion**: what is expanded, where, and what was done before. -/
structure Call (source : Source) where
  /-- Where the subject stands. -/
  scope : Scope
  /-- What is expanded. -/
  subject : Subject
  /-- What the load has done so far. -/
  progress : Progress source

namespace Load

variable {source : Source} {α β : Type}

/-- **Expands a file or a document.** -/
def perform (scope : Scope) : Subject → Load source Marked
  | .file => do
    let file ← fetchMembers scope.file
    expand scope (.object file.value)
  | .document d => expand scope d

/-! ### The body of the recursion -/

section Body

variable (self : Scope → Subject → Load source Marked)

/-- The items of an array, one after the other. -/
def itemsWith (scope : Scope) (i : Nat) : List Document → Load source (List Marked)
  | [] => pure []
  | item :: rest => do
    let node ← self (scope.item i) (.document item)
    let others ← itemsWith scope (i + 1) rest
    return node :: others

/-- The members of an object, one after the other. -/
def membersWith (scope : Scope) (taken : List String) :
    Members Document → Load source (Members (Bool × Marked))
  | [] => pure []
  | (key, value) :: rest =>
    if Directive.name key ∈ taken then
      throw (.keyCollision scope.file (scope.place.key (Directive.name key)) (Directive.name key))
    else do
      let node ← self (scope.member (Directive.name key)) (.document value)
      let others ← membersWith scope (Directive.name key :: taken) rest
      return (Directive.name key, Directive.isMarked key || scope.isPublic, node) :: others

/-- The files that texts name, one after the other. -/
def includesWith (scope : Scope) :
    List String → Members (Bool × Marked) → Load source (Members (Bool × Marked))
  | [], merged => pure merged
  | text :: rest, merged =>
    if scope.target text ∈ scope.chain then throw (.cycle (scope.target text) scope.chain)
    else do
      emit (.including scope.file (scope.target text))
      let node ← self (scope.enter (scope.target text)) .file
      includesWith scope rest (Marked.mergeMembers merged node.members)

/-- The files that an object includes. -/
def includedWith (scope : Scope) (members : Members Document) :
    Load source (Members (Bool × Marked)) :=
  match members.get? Directive.includeKey with
  | none => pure []
  | some value => do
    reportIncludes scope value
    includesWith self scope (Directive.includedTexts value) []

/-- The public block of an object. -/
def blockWith (scope : Scope) (members : Members Document) :
    Load source (Members (Bool × Marked)) :=
  match members.get? Directive.publicKey with
  | none => pure []
  | some (.object block) => do
    let node ← self scope.inBlock (.document (.object block))
    return node.members
  | some _ => throw (.invalidPublicBlock scope.file (scope.place.key Directive.publicKey))

/-- The three parts of an object, merged. -/
def objectWith (scope : Scope) (members : Members Document) :
    Load source (Members (Bool × Marked)) := do
  let included ← includedWith self scope members
  let block ← blockWith self scope members
  let own ← membersWith self scope [] (Directive.ordinary members)
  return Marked.mergeMembers (Marked.mergeMembers included block) own

/-- **The body of the recursion**, with a parameter for the recursive calls. -/
def bodyWith (scope : Scope) : Subject → Load source Marked
  | .file => do
    let file ← fetchMembers scope.file
    self scope (.document (.object file.value))
  | .document (.scalar s) => pure (.scalar s)
  | .document (.array items) => return .array (← itemsWith self scope 0 items)
  | .document (.object members) => return .object (← objectWith self scope members)

end Body

/-! ### Expanding is a solution -/

theorem itemsWith_perform (scope : Scope) (i : Nat) (items : List Document) :
    itemsWith perform scope i items = (expandItems scope i items : Load source _) := by
  induction items generalizing i with
  | nil => rw [itemsWith, expandItems]
  | cons item rest ih =>
    rw [itemsWith, expandItems, ih]
    rfl

theorem membersWith_perform (scope : Scope) (taken : List String) (members : Members Document) :
    membersWith perform scope taken members =
      (expandMembers scope taken members : Load source _) := by
  induction members generalizing taken with
  | nil => rw [membersWith, expandMembers]
  | cons member rest ih =>
    obtain ⟨key, value⟩ := member
    rw [membersWith, expandMembers_cons, ih]
    rfl

/-- A file that is entered is fetched, and the object in it is expanded. -/
theorem perform_file_bind (scope : Scope) (next : Members (Bool × Marked) → Load source β) :
    (perform scope .file >>= fun node => next node.members) =
      fetchMembers scope.file >>= fun file => expandObject scope file.value >>= next := by
  simp only [perform, expand, bind_assoc, pure_bind, Marked.members_object]

theorem includesWith_perform (scope : Scope) (texts : List String)
    (merged : Members (Bool × Marked)) :
    includesWith perform scope texts merged =
      (expandIncludes scope texts merged : Load source _) := by
  induction texts generalizing merged with
  | nil => rw [includesWith, expandIncludes]
  | cons text rest ih =>
    rw [includesWith, expandIncludes]
    split
    · rfl
    · simp only [ih]
      exact congrArg _ (funext fun _ => perform_file_bind (scope.enter (scope.target text))
        fun tree => expandIncludes scope rest (Marked.mergeMembers merged tree))

theorem includedWith_perform (scope : Scope) (members : Members Document) :
    includedWith perform scope members = (expandIncluded scope members : Load source _) := by
  rw [includedWith, expandIncluded]
  rcases members.get? Directive.includeKey with _ | value
  · rfl
  · simp only [includesWith_perform]

theorem blockWith_perform (scope : Scope) (members : Members Document) :
    blockWith perform scope members = (expandBlock scope members : Load source _) := by
  rw [blockWith, expandBlock]
  rcases members.get? Directive.publicKey with _ | (_ | _ | block)
  · rfl
  · rfl
  · rfl
  · simp only [perform, expand, bind_assoc, pure_bind, Marked.members_object, bind_pure]

/-- **Expanding solves the equation** of the recursion. -/
theorem bodyWith_perform (scope : Scope) (subject : Subject) :
    bodyWith perform scope subject = (perform scope subject : Load source _) := by
  cases subject with
  | file => rfl
  | document d =>
    cases d with
    | scalar s => rw [bodyWith, perform, expand]
    | array items => rw [bodyWith, perform, expand, itemsWith_perform]
    | object members =>
      rw [bodyWith, perform, expand, objectWith, expandObject_eq, includedWith_perform,
        blockWith_perform, membersWith_perform]

/-- Two sequences come to the same if their first steps do, and then their rests. -/
theorem bind_congr_at {load load' : Load source α} {next next' : α → Load source β}
    {progress : Progress source} (h : load progress = load' progress)
    (hnext : ∀ a later, load' progress = .ok a later → next a later = next' a later) :
    (load >>= next) progress = (load' >>= next') progress := by
  rcases hload : load' progress with ⟨a, later⟩ | ⟨e, later⟩
  · rw [bind_of_ok (h.trans hload), bind_of_ok hload, hnext a later hload]
  · rw [bind_of_error (h.trans hload), bind_of_error hload]

end Load

/-! ### The calls that a call makes -/

namespace Call

open Load

variable {source : Source} {scope : Scope} {progress later : Progress source}
  {call inner : Call source}

/-- **What a call comes to.** -/
def run (call : Call source) : EStateM.Result LoadError (Progress source) Marked :=
  perform call.scope call.subject call.progress

/-- **Calls for the items of an array**, one after the other, as long as they succeed. -/
inductive ForItem : Scope → ℕ → List Document → Progress source → Call source → Prop
  | here {scope : Scope} {i : ℕ} {item : Document} {rest : List Document}
      {progress : Progress source} :
      ForItem scope i (item :: rest) progress ⟨scope.item i, .document item, progress⟩
  | later {scope : Scope} {i : ℕ} {item : Document} {rest : List Document}
      {progress next : Progress source} {node : Marked} {inner : Call source} :
      perform (scope.item i) (.document item) progress = .ok node next →
      ForItem scope (i + 1) rest next inner → ForItem scope i (item :: rest) progress inner

/-- **Calls for the members of an object**, one after the other, as long as they succeed and no name
comes again. -/
inductive ForMember :
    Scope → List String → Members Document → Progress source → Call source → Prop
  | here {scope : Scope} {taken : List String} {key : String} {value : Document}
      {rest : Members Document} {progress : Progress source} : Directive.name key ∉ taken →
      ForMember scope taken ((key, value) :: rest) progress
        ⟨scope.member (Directive.name key), .document value, progress⟩
  | later {scope : Scope} {taken : List String} {key : String} {value : Document}
      {rest : Members Document} {progress next : Progress source} {node : Marked}
      {inner : Call source} : Directive.name key ∉ taken →
      perform (scope.member (Directive.name key)) (.document value) progress = .ok node next →
      ForMember scope (Directive.name key :: taken) rest next inner →
      ForMember scope taken ((key, value) :: rest) progress inner

/-- **Calls for the files that texts name**, one after the other, as long as they succeed and none
of them is being expanded. -/
inductive ForInclude : Scope → List String → Progress source → Call source → Prop
  | here {scope : Scope} {text : String} {rest : List String} {progress : Progress source} :
      scope.target text ∉ scope.chain →
      ForInclude scope (text :: rest) progress ⟨scope.enter (scope.target text), .file,
        after (emit (.including scope.file (scope.target text))) progress⟩
  | later {scope : Scope} {text : String} {rest : List String} {progress next : Progress source}
      {node : Marked} {inner : Call source} : scope.target text ∉ scope.chain →
      perform (scope.enter (scope.target text)) .file
        (after (emit (.including scope.file (scope.target text))) progress) = .ok node next →
      ForInclude scope rest next inner → ForInclude scope (text :: rest) progress inner

/-- **The calls that a call makes.** -/
inductive Makes : Call source → Call source → Prop
  /-- A file is expanded as the object in it. -/
  | contents {scope : Scope} {progress later : Progress source}
      {file : source.Fetched scope.file (Members Document)} :
      fetchMembers scope.file progress = .ok file later →
      Makes ⟨scope, .file, progress⟩ ⟨scope, .document (.object file.value), later⟩
  /-- An array makes calls for its items. -/
  | item {scope : Scope} {items : List Document} {progress : Progress source}
      {inner : Call source} : ForItem scope 0 items progress inner →
      Makes ⟨scope, .document (.array items), progress⟩ inner
  /-- An object makes calls for the files that it includes. -/
  | included {scope : Scope} {members : Members Document} {value : Document}
      {progress : Progress source} {inner : Call source} :
      members.get? Directive.includeKey = some value →
      ForInclude scope (Directive.includedTexts value)
        (after (reportIncludes scope value) progress) inner →
      Makes ⟨scope, .document (.object members), progress⟩ inner
  /-- Then one for its public block. -/
  | block {scope : Scope} {members block : Members Document} {progress next : Progress source}
      {included : Members (Bool × Marked)} :
      members.get? Directive.publicKey = some (.object block) →
      expandIncluded scope members progress = .ok included next →
      Makes ⟨scope, .document (.object members), progress⟩
        ⟨scope.inBlock, .document (.object block), next⟩
  /-- And then calls for its other members. -/
  | member {scope : Scope} {members : Members Document} {progress next last : Progress source}
      {included block : Members (Bool × Marked)} {inner : Call source} :
      expandIncluded scope members progress = .ok included next →
      expandBlock scope members next = .ok block last →
      ForMember scope [] (Directive.ordinary members) last inner →
      Makes ⟨scope, .document (.object members), progress⟩ inner

/-! ### Nothing but these calls matters -/

/-- A function does at a call what expanding does. -/
def RunBy (self : Scope → Subject → Load source Marked) (call : Call source) : Prop :=
  self call.scope call.subject call.progress = call.run

variable {self : Scope → Subject → Load source Marked}

theorem itemsWith_eq {i : ℕ} {items : List Document}
    (h : ∀ inner, ForItem scope i items progress inner → inner.RunBy self) :
    itemsWith self scope i items progress = itemsWith perform scope i items progress := by
  induction items generalizing i progress with
  | nil => rfl
  | cons item rest ih =>
    rw [itemsWith, itemsWith]
    refine bind_congr_at (h _ .here) fun node next hnode => ?_
    exact bind_congr_at (ih fun inner hinner => h inner (.later hnode hinner)) fun _ _ _ => rfl

theorem membersWith_eq {taken : List String} {members : Members Document}
    (h : ∀ inner, ForMember scope taken members progress inner → inner.RunBy self) :
    membersWith self scope taken members progress =
      membersWith perform scope taken members progress := by
  induction members generalizing taken progress with
  | nil => rfl
  | cons member rest ih =>
    obtain ⟨key, value⟩ := member
    rw [membersWith, membersWith]
    by_cases htaken : Directive.name key ∈ taken
    · rw [if_pos htaken, if_pos htaken]
    · rw [if_neg htaken, if_neg htaken]
      refine bind_congr_at (h _ (.here htaken)) fun node next hnode => ?_
      exact bind_congr_at (ih fun inner hinner => h inner (.later htaken hnode hinner))
        fun _ _ _ => rfl

theorem includesWith_eq {texts : List String} {merged : Members (Bool × Marked)}
    (h : ∀ inner, ForInclude scope texts progress inner → inner.RunBy self) :
    includesWith self scope texts merged progress =
      includesWith perform scope texts merged progress := by
  induction texts generalizing merged progress with
  | nil => rfl
  | cons text rest ih =>
    rw [includesWith, includesWith]
    by_cases hchain : scope.target text ∈ scope.chain
    · rw [if_pos hchain, if_pos hchain]
    · rw [if_neg hchain, if_neg hchain, emit_bind, emit_bind]
      refine bind_congr_at (h _ (.here hchain)) fun node next hnode => ?_
      exact ih fun inner hinner => h inner (.later hchain hnode hinner)

theorem objectWith_eq {members : Members Document}
    (h : ∀ inner, Makes ⟨scope, .document (.object members), progress⟩ inner → inner.RunBy self) :
    objectWith self scope members progress = objectWith perform scope members progress := by
  have hincluded :
      includedWith self scope members progress = includedWith perform scope members progress := by
    rw [includedWith, includedWith]
    rcases hvalue : members.get? Directive.includeKey with _ | value
    · rfl
    · dsimp only
      rw [bind_of_ok (reportIncludes_eq scope value progress),
        bind_of_ok (reportIncludes_eq scope value progress)]
      refine includesWith_eq fun inner hinner => h inner (.included hvalue ?_)
      rwa [after, reportIncludes_eq]
  refine bind_congr_at hincluded fun included next hnext => ?_
  rw [includedWith_perform] at hnext
  have hblock : blockWith self scope members next = blockWith perform scope members next := by
    rw [blockWith, blockWith]
    rcases hvalue : members.get? Directive.publicKey with _ | (_ | _ | block)
    · rfl
    · rfl
    · rfl
    · exact bind_congr_at (h _ (.block hvalue hnext)) fun _ _ _ => rfl
  refine bind_congr_at hblock fun block last hlast => ?_
  rw [blockWith_perform] at hlast
  exact bind_congr_at (membersWith_eq fun inner hinner => h inner (.member hnext hlast hinner))
    fun _ _ _ => rfl

/-- **A call depends on the calls that it makes** and on no others: where these are run by some
function, the body of the recursion with that function gives what the call comes to. -/
theorem bodyWith_eq_run (h : ∀ inner, call.Makes inner → inner.RunBy self) :
    call.RunBy (bodyWith self) := by
  obtain ⟨scope, subject, progress⟩ := call
  rw [RunBy, run, ← bodyWith_perform]
  cases subject with
  | file => exact bind_congr_at rfl fun file next hfile => h _ (.contents hfile)
  | document d =>
    cases d with
    | scalar s => rfl
    | array items =>
      exact bind_congr_at (itemsWith_eq fun inner hinner => h inner (.item hinner))
        fun _ _ _ => rfl
    | object members => exact bind_congr_at (objectWith_eq h) fun _ _ _ => rfl

end Call

end ConfigTree
