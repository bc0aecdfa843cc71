import ConfigTree.Document.Parser

/-!
# The grammar of documents

What `ConfigTree.Document.read` accepts, as a relation between a text, the document at its start
and what is left after it (`ConfigTree.Document.Reads`), with one rule for each form of a document
and no proofs of termination in it. The reader follows these rules and no others
(`ConfigTree.Document.read_eq_ok_iff`), so a statement about what is read is proved along them.

The first such statement is that no object that is read repeats a key
(`ConfigTree.Document.distinct_parse`): of members with one key, only the last value is kept.
-/

namespace ConfigTree

/-- A member after a `put` is the one that was put, or was there before. -/
theorem Members.mem_of_mem_put {α : Type} {members : Members α} {key : String} {a : α}
    {member : String × α} (h : member ∈ members.put key a) :
    member = (key, a) ∨ member ∈ members := by
  induction members with
  | nil => exact Or.inl (List.mem_singleton.1 h)
  | cons first rest ih =>
    obtain ⟨name, b⟩ := first
    rw [put] at h
    split at h
    · rename_i hname
      rcases List.mem_cons.1 h with rfl | h
      · exact Or.inl (by rw [hname])
      · exact Or.inr (List.mem_cons_of_mem _ h)
    · rcases List.mem_cons.1 h with rfl | h
      · exact Or.inr List.mem_cons_self
      · exact (ih h).imp_right (List.mem_cons_of_mem _)

namespace Document

mutual

/-- **A document at the start of a text**, and what is left of the text. -/
inductive Reads : List Char → Document → List Char → Prop
  | scalar {s rest r : List Char} {c : Char} {a : Scalar} : skip s = .ok (c :: rest) → c ≠ '[' →
      c ≠ '\x7b' → readScalar (c :: rest) = .ok (a, r) → Reads s (.scalar a) r
  | array {s rest r : List Char} {items : List Document} : skip s = .ok ('[' :: rest) →
      ReadsItems rest items r → Reads s (.array items) r
  | object {s rest r : List Char} {pairs : List (String × Document)} :
      skip s = .ok ('\x7b' :: rest) → ReadsMembers rest pairs r →
      Reads s (.object (ofPairs pairs)) r

/-- The items of an array and its closing bracket. A comma may follow the last item. -/
inductive ReadsItems : List Char → List Document → List Char → Prop
  | close {s r : List Char} : skip s = .ok (']' :: r) → ReadsItems s [] r
  | last {s rest next r : List Char} {c : Char} {item : Document} : skip s = .ok (c :: rest) →
      c ≠ ']' → Reads (c :: rest) item next → skip next = .ok (']' :: r) → ReadsItems s [item] r
  | cons {s rest next others r : List Char} {c : Char} {item : Document} {items : List Document} :
      skip s = .ok (c :: rest) → c ≠ ']' → Reads (c :: rest) item next →
      skip next = .ok (',' :: others) → ReadsItems others items r → ReadsItems s (item :: items) r

/-- The members of an object and its closing brace. A comma may follow the last member. -/
inductive ReadsMembers : List Char → List (String × Document) → List Char → Prop
  | close {s r : List Char} : skip s = .ok ('\x7d' :: r) → ReadsMembers s [] r
  | last {s rest value next r : List Char} {c : Char} {name : String} {d : Document} :
      skip s = .ok (c :: rest) → c ≠ '\x7d' → readKeyColon (c :: rest) = .ok (name, value) →
      Reads value d next → skip next = .ok ('\x7d' :: r) → ReadsMembers s [(name, d)] r
  | cons {s rest value next others r : List Char} {c : Char} {name : String} {d : Document}
      {pairs : List (String × Document)} : skip s = .ok (c :: rest) → c ≠ '\x7d' →
      readKeyColon (c :: rest) = .ok (name, value) → Reads value d next →
      skip next = .ok (',' :: others) → ReadsMembers others pairs r →
      ReadsMembers s ((name, d) :: pairs) r

end

/-! ### The reader follows the grammar -/

theorem skip_of_skipBlanks {s r : List Char} {hr : r.length ≤ s.length}
    (h : skipBlanks s = .ok ⟨r, hr⟩) : skip s = .ok r := by
  rcases hs : skip s with e | r'
  · nomatch (skipBlanks_of_error hs).symm.trans h
  · cases (skipBlanks_of_ok hs).symm.trans h
    rfl

theorem of_shorter {α : Type} {s r : List Char} {x : Except Failure (α × List Char)}
    {hx : ∀ a r, x = .ok (a, r) → r.length < s.length} {a : α} {hr : r.length < s.length}
    (h : shorter x hx = .ok (a, ⟨r, hr⟩)) : x = .ok (a, r) := by
  rcases hok : x with e | ⟨a', r'⟩
  · nomatch (shorter_of_error hok).symm.trans h
  · cases (shorter_of_ok hok).symm.trans h
    rfl

mutual

theorem reads_of_read {s r : List Char} {d : Document} {hr : r.length < s.length}
    (h : read s = .ok (d, ⟨r, hr⟩)) : Reads s d r := by
  unfold read at h
  split at h
  · nomatch h
  · nomatch h
  · rename_i c rest hs hskip
    have hskip := skip_of_skipBlanks hskip
    split at h
    · rename_i hc
      subst hc
      rcases hitems : readItems rest with e | ⟨items, r', hr'⟩ <;> rw [hitems] at h
      · nomatch h
      · cases h
        exact .array hskip (reads_of_readItems hitems)
    rename_i harray
    split at h
    · rename_i hc
      subst hc
      rcases hpairs : readMembers rest with e | ⟨pairs, r', hr'⟩ <;> rw [hpairs] at h
      · nomatch h
      · cases h
        exact .object hskip (reads_of_readMembers hpairs)
    rename_i hobject
    split at h
    · nomatch h
    · rename_i hscalar
      cases h
      exact .scalar hskip harray hobject (of_shorter hscalar)
termination_by 2 * s.length
decreasing_by
  all_goals
    have := length_skip hskip
    simp only [List.length_cons] at this
    omega

theorem reads_of_readItems {s r : List Char} {items : List Document} {hr : r.length < s.length}
    (h : readItems s = .ok (items, ⟨r, hr⟩)) : ReadsItems s items r := by
  unfold readItems at h
  split at h
  · nomatch h
  · nomatch h
  rename_i c rest hs hskip
  have hskip := skip_of_skipBlanks hskip
  split at h
  · rename_i hc
    subst hc
    cases h
    exact .close hskip
  rename_i hc
  split at h
  · nomatch h
  rename_i item next hi hitem
  have hitem := reads_of_read hitem
  split at h
  · nomatch h
  · nomatch h
  rename_i c' others ha hnext
  have hnext := skip_of_skipBlanks hnext
  split at h
  · rename_i hc'
    subst hc'
    cases h
    exact .last hskip hc hitem hnext
  split at h
  · rename_i hc'
    subst hc'
    rcases hitems : readItems others with e | ⟨items', r', hr'⟩ <;> rw [hitems] at h
    · nomatch h
    · cases h
      exact .cons hskip hc hitem hnext (reads_of_readItems hitems)
  · nomatch h
termination_by 2 * s.length + 1
decreasing_by
  · have := length_skip hskip
    omega
  · have := length_skip hskip
    have := length_skip hnext
    simp only [List.length_cons] at *
    omega

theorem reads_of_readMembers {s r : List Char} {pairs : List (String × Document)}
    {hr : r.length < s.length} (h : readMembers s = .ok (pairs, ⟨r, hr⟩)) :
    ReadsMembers s pairs r := by
  unfold readMembers at h
  split at h
  · nomatch h
  · nomatch h
  rename_i c rest hs hskip
  have hskip := skip_of_skipBlanks hskip
  split at h
  · rename_i hc
    subst hc
    cases h
    exact .close hskip
  rename_i hc
  split at h
  · nomatch h
  rename_i name value hk hkey
  have hkey := of_shorter hkey
  split at h
  · nomatch h
  rename_i d next hv hvalue
  have hvalue := reads_of_read hvalue
  split at h
  · nomatch h
  · nomatch h
  rename_i c' others ha hnext
  have hnext := skip_of_skipBlanks hnext
  split at h
  · rename_i hc'
    subst hc'
    cases h
    exact .last hskip hc hkey hvalue hnext
  split at h
  · rename_i hc'
    subst hc'
    rcases hpairs : readMembers others with e | ⟨pairs', r', hr'⟩ <;> rw [hpairs] at h
    · nomatch h
    · cases h
      exact .cons hskip hc hkey hvalue hnext (reads_of_readMembers hpairs)
  · nomatch h
termination_by 2 * s.length + 1
decreasing_by
  · have := length_skip hskip
    omega
  · have := length_skip hskip
    have := length_skip hnext
    simp only [List.length_cons] at *
    omega

end

mutual

theorem Reads.read_eq {s r : List Char} {d : Document} :
    Reads s d r → ∃ hr, read s = .ok (d, ⟨r, hr⟩)
  | .scalar hskip harray hobject ha => by
    rw [read, skipBlanks_of_ok hskip]
    dsimp only
    rw [if_neg harray, if_neg hobject, shorter_of_ok ha]
    exact ⟨_, rfl⟩
  | .array hskip hitems => by
    obtain ⟨hr, hread⟩ := hitems.read_eq
    rw [read, skipBlanks_of_ok hskip]
    dsimp only
    rw [if_pos rfl, hread]
    exact ⟨_, rfl⟩
  | .object hskip hpairs => by
    obtain ⟨hr, hread⟩ := hpairs.read_eq
    rw [read, skipBlanks_of_ok hskip]
    dsimp only
    rw [if_neg (by decide), if_pos rfl, hread]
    exact ⟨_, rfl⟩

theorem ReadsItems.read_eq {s r : List Char} {items : List Document} :
    ReadsItems s items r → ∃ hr, readItems s = .ok (items, ⟨r, hr⟩)
  | .close hskip => by
    rw [readItems, skipBlanks_of_ok hskip]
    dsimp only
    rw [if_pos rfl]
    exact ⟨_, rfl⟩
  | .last hskip hc hitem hnext => by
    obtain ⟨hi, hread⟩ := hitem.read_eq
    rw [readItems, skipBlanks_of_ok hskip]
    dsimp only
    rw [if_neg hc, hread]
    dsimp only
    rw [skipBlanks_of_ok hnext]
    dsimp only
    rw [if_pos rfl]
    exact ⟨_, rfl⟩
  | .cons hskip hc hitem hnext hitems => by
    obtain ⟨hi, hread⟩ := hitem.read_eq
    obtain ⟨hr, hrest⟩ := hitems.read_eq
    rw [readItems, skipBlanks_of_ok hskip]
    dsimp only
    rw [if_neg hc, hread]
    dsimp only
    rw [skipBlanks_of_ok hnext]
    dsimp only
    rw [if_neg (by decide), if_pos rfl, hrest]
    exact ⟨_, rfl⟩

theorem ReadsMembers.read_eq {s r : List Char} {pairs : List (String × Document)} :
    ReadsMembers s pairs r → ∃ hr, readMembers s = .ok (pairs, ⟨r, hr⟩)
  | .close hskip => by
    rw [readMembers, skipBlanks_of_ok hskip]
    dsimp only
    rw [if_pos rfl]
    exact ⟨_, rfl⟩
  | .last hskip hc hkey hvalue hnext => by
    obtain ⟨hv, hread⟩ := hvalue.read_eq
    rw [readMembers, skipBlanks_of_ok hskip]
    dsimp only
    rw [if_neg hc, shorter_of_ok hkey]
    dsimp only
    rw [hread]
    dsimp only
    rw [skipBlanks_of_ok hnext]
    dsimp only
    rw [if_pos rfl]
    exact ⟨_, rfl⟩
  | .cons hskip hc hkey hvalue hnext hpairs => by
    obtain ⟨hv, hread⟩ := hvalue.read_eq
    obtain ⟨hr, hrest⟩ := hpairs.read_eq
    rw [readMembers, skipBlanks_of_ok hskip]
    dsimp only
    rw [if_neg hc, shorter_of_ok hkey]
    dsimp only
    rw [hread]
    dsimp only
    rw [skipBlanks_of_ok hnext]
    dsimp only
    rw [if_neg (by decide), if_pos rfl, hrest]
    exact ⟨_, rfl⟩

end

/-- **The reader follows the grammar**, and no other rules. -/
theorem read_eq_ok_iff {s r : List Char} {d : Document} :
    (∃ hr, read s = .ok (d, ⟨r, hr⟩)) ↔ Reads s d r := by
  constructor
  · rintro ⟨hr, h⟩
    exact reads_of_read h
  · exact Reads.read_eq

/-- **A text holds a document** when nothing but blanks and comments follows it. -/
theorem parse_eq_ok_iff {text : String} {d : Document} :
    parse text = .ok d ↔ ∃ rest, Reads text.toList d rest ∧ skip rest = .ok [] := by
  rw [parse, mapError_eq_ok_iff, readWhole]
  constructor
  · intro h
    rcases hread : read text.toList with e | ⟨d', rest, hr⟩
    · simp [hread, bind, Except.bind] at h
    · rcases hskip : skip rest with e | _ | ⟨c, rest'⟩
      · simp [hread, hskip, bind, Except.bind] at h
      · simp only [hread, hskip, bind, Except.bind, Except.ok.injEq] at h
        exact ⟨rest, h ▸ reads_of_read hread, hskip⟩
      · simp [hread, hskip, bind, Except.bind] at h
  · rintro ⟨rest, hreads, hskip⟩
    obtain ⟨hr, hread⟩ := hreads.read_eq
    simp [hread, hskip, bind, Except.bind]

/-! ### Distinct keys -/

/-- Of the pairs that a text lists, members with distinct keys are kept. -/
theorem distinct_ofPairs {pairs : List (String × Document)} (h : ∀ pair ∈ pairs, pair.2.Distinct) :
    (object (ofPairs pairs)).Distinct := by
  -- a put keeps keys distinct, and puts a value that is listed
  have hput (members : Members Document) (hmembers : (object members).Distinct) :
      (object (pairs.foldl (fun others pair => Members.put others pair.1 pair.2)
        members)).Distinct := by
    induction pairs generalizing members with
    | nil => exact hmembers
    | cons pair pairs ih =>
      obtain ⟨hpair, hpairs⟩ := List.forall_mem_cons.1 h
      obtain ⟨hkeys, hvalues⟩ := hmembers
      refine ih hpairs _ ⟨hkeys.put _ _, distinctMembers_iff.2 fun member hmember => ?_⟩
      rcases Members.mem_of_mem_put hmember with rfl | hmember
      · exact hpair
      · exact distinctMembers_iff.1 hvalues member hmember
  exact hput [] ⟨List.nodup_nil, trivial⟩

mutual

theorem Reads.distinct {s r : List Char} {d : Document} : Reads s d r → d.Distinct
  | .scalar _ _ _ _ => trivial
  | .array _ hitems => by
    rw [Distinct, distinctItems_iff]
    exact hitems.distinct
  | .object _ hpairs => distinct_ofPairs hpairs.distinct

theorem ReadsItems.distinct {s r : List Char} {items : List Document} :
    ReadsItems s items r → ∀ item ∈ items, item.Distinct
  | .close _ => by simp
  | .last _ _ hitem _ => by simpa using hitem.distinct
  | .cons _ _ hitem _ hitems => List.forall_mem_cons.2 ⟨hitem.distinct, hitems.distinct⟩

theorem ReadsMembers.distinct {s r : List Char} {pairs : List (String × Document)} :
    ReadsMembers s pairs r → ∀ pair ∈ pairs, pair.2.Distinct
  | .close _ => by simp
  | .last _ _ _ hvalue _ => by simpa using hvalue.distinct
  | .cons _ _ _ hvalue _ hpairs => List.forall_mem_cons.2 ⟨hvalue.distinct, hpairs.distinct⟩

end

/-- **What is read repeats no key** in an object. -/
theorem distinct_parse {text : String} {d : Document} (h : parse text = .ok d) : d.Distinct := by
  obtain ⟨rest, hreads, -⟩ := parse_eq_ok_iff.1 h
  exact hreads.distinct

end Document

end ConfigTree
