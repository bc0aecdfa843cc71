import ConfigTree.Document.Printer
import ConfigTree.Proofs.Grammar
import ConfigTree.ValuePath
import Mathlib

/-!
# Reading what was written

The lenient reader reads what the strict writer wrote, in either layout: characters and strings
(`ConfigTree.Quoted.read_flatMap_writeChar`), integers (`ConfigTree.Literal.read_integerText`),
keys, and from these whole documents (`ConfigTree.Document.readBack`), by induction on the document
along the grammar. Where a number ends is decided by what follows it, so the statement is about a
document in front of a text that may follow it there (`ConfigTree.Delimited`).

Two things are assumed of a document. It repeats no key, as of members with one key only the last
value is read. And its numbers are integers (`ConfigTree.Document.Integral`): what the digits of a
double are read as is not the subject here.
-/

namespace ConfigTree

/-- A text that may follow a document where it is written: a line end, a comma, a closing bracket,
or nothing more. -/
def Delimited (s : List Char) : Prop := ∀ c ∈ s.head?, c = ',' ∨ c = ']' ∨ c = '\x7d' ∨ c = '\n'

/-! ### Blanks -/

theorem skip_cons_of_isBlank {c : Char} (h : isBlank c = true) (s : List Char) :
    skip (c :: s) = skip s := by
  have hslash : c ≠ '/' := by
    rintro rfl
    exact absurd h (by decide)
  rw [skip, Gap.skip, if_pos h, skip]
  all_goals
    intros
    simp_all

/-- Blanks are dropped. -/
theorem skip_append {blanks : List Char} (h : ∀ c ∈ blanks, isBlank c = true) (s : List Char) :
    skip (blanks ++ s) = skip s := by
  induction blanks with
  | nil => rfl
  | cons c blanks ih =>
    obtain ⟨hc, hblanks⟩ := List.forall_mem_cons.1 h
    rw [List.cons_append, skip_cons_of_isBlank hc, ih hblanks]

/-! ### Integers -/

namespace Literal

theorem ofDigits_digits (n : Nat) : ofDigits (Number.digits n) = n :=
  Nat.ofDigitChars_toDigits (by decide) (by decide)

theorem isDigit_of_mem_digits {n : Nat} {c : Char} (h : c ∈ Number.digits n) : c.isDigit = true :=
  Nat.isDigit_of_mem_toDigits (by decide) (by decide) h

/-- The digits of a positive number do not begin with a zero. -/
theorem exists_digits_eq_cons {n : Nat} (hn : 0 < n) :
    ∃ c ds, Number.digits n = c :: ds ∧ c ≠ '0' := by
  induction n using Nat.strong_induction_on with
  | _ n ih =>
    rcases Nat.lt_or_ge n 10 with hlt | hge
    · refine ⟨n.digitChar, [], Nat.toDigits_of_lt_base hlt, ?_⟩
      interval_cases n <;> decide
    · obtain ⟨c, ds, hds, hc⟩ := ih (n / 10) (by omega) (by omega)
      refine ⟨c, ds ++ [(n % 10).digitChar], ?_, hc⟩
      rw [Number.digits, Nat.toDigits_of_base_le (by decide) hge, ← Number.digits, hds,
        List.cons_append]

theorem isDecimalChar_of_isDigit {c : Char} (h : c.isDigit = true) : isDecimalChar c = true := by
  simp [isDecimalChar, h]

/-- A literal of digits is an integer. -/
theorem decimal_digits (negative : Bool) (start : List Char) (n : Nat) {rest : List Char}
    (h : Delimited rest) :
    decimal negative start (Number.digits n ++ rest) =
      .ok (Number.ofMagnitude? negative n, rest) := by
  have hdigits : ∀ c ∈ Number.digits n, isDecimalChar c = true := fun c hc =>
    isDecimalChar_of_isDigit (isDigit_of_mem_digits hc)
  obtain ⟨htake, hdrop⟩ : rest.takeWhile isDecimalChar = [] ∧
      rest.dropWhile isDecimalChar = rest := by
    rcases rest with _ | ⟨c, rest⟩
    · exact ⟨rfl, rfl⟩
    · have hc : isDecimalChar c = false := by
        rcases h c rfl with rfl | rfl | rfl | rfl <;> decide
      simp [hc]
  rw [decimal]
  simp only [List.takeWhile_append_of_pos hdigits, List.dropWhile_append_of_pos hdigits, htake,
    hdrop, List.append_nil, ofDigits_digits]
  rw [if_pos (List.all_eq_true.2 fun c hc => isDigit_of_mem_digits hc)]

theorem unsigned_of_digit {c : Char} (hc : c.isDigit = true) (hzero : c ≠ '0') (negative : Bool)
    (start s : List Char) : unsigned negative start (c :: s) = decimal negative start (c :: s) := by
  unfold unsigned
  split <;> simp_all [show 'I'.isDigit = false by decide, show 'N'.isDigit = false by decide]

theorem unsigned_zero (negative : Bool) (start : List Char) {rest : List Char}
    (h : Delimited rest) :
    unsigned negative start ('0' :: rest) = .ok (some .zero, rest) := by
  rcases rest with _ | ⟨c, rest⟩
  · rfl
  · rcases h c rfl with rfl | rfl | rfl | rfl <;> rfl

theorem unsigned_digits (negative : Bool) (start : List Char) {n : Nat} (hn : 0 < n)
    {rest : List Char} (h : Delimited rest) :
    unsigned negative start (Number.digits n ++ rest) =
      .ok (Number.ofMagnitude? negative n, rest) := by
  obtain ⟨c, ds, hds, hc⟩ := exists_digits_eq_cons hn
  have hdigit : c.isDigit = true := isDigit_of_mem_digits (hds ▸ List.mem_cons_self)
  rw [← decimal_digits negative start n h, hds]
  exact unsigned_of_digit hdigit hc negative start _

theorem read_of_digit {c : Char} (hc : c.isDigit = true) (s : List Char) :
    read (c :: s) = unsigned false (c :: s) (c :: s) := by
  unfold read
  split <;> simp_all [show '-'.isDigit = false by decide, show '+'.isDigit = false by decide]

/-- The text of an integer begins with a sign or a digit. -/
theorem exists_integerText_eq_cons (n : Int) :
    ∃ c cs, Number.integerText n = c :: cs ∧ (c = '-' ∨ c.isDigit = true) := by
  rw [Number.integerText]
  split
  · exact ⟨'-', _, rfl, Or.inl rfl⟩
  · obtain ⟨c, cs, hcs⟩ :=
      List.exists_cons_of_ne_nil (Nat.toDigits_ne_nil (n := n.natAbs) (b := 10))
    exact ⟨c, cs, hcs, Or.inr (isDigit_of_mem_digits (hcs ▸ List.mem_cons_self))⟩

/-- **An integer is read as it was written.** -/
theorem read_integerText (n : Integer64) {rest : List Char} (h : Delimited rest) :
    read (Number.integerText n.value ++ rest) = .ok (some (.integer n), rest) := by
  obtain ⟨n, hrange⟩ := n
  dsimp only
  rw [Number.integerText]
  rcases lt_trichotomy n 0 with hneg | rfl | hpos
  · have habs : n = -(n.natAbs : Int) := by omega
    rw [if_pos hneg, List.cons_append, read, unsigned_digits true _ (by omega) h,
      Number.ofMagnitude?, if_pos rfl, dif_pos (by omega)]
    simp only [← habs]
  · exact unsigned_zero false _ h
  · have habs : n = n.natAbs := by omega
    obtain ⟨c, ds, hds, -⟩ := exists_digits_eq_cons (n := n.natAbs) (by omega)
    have hdigit : c.isDigit = true := isDigit_of_mem_digits (hds ▸ List.mem_cons_self)
    rw [if_neg (by omega), hds, List.cons_append, read_of_digit hdigit, ← List.cons_append, ← hds,
      unsigned_digits false _ (by omega) h, Number.ofMagnitude?, if_neg (by decide),
      dif_pos (by omega)]
    simp only [← habs]

end Literal

/-! ### Strings -/

namespace Quoted

/-- A control character is read as it was escaped. -/
theorem unicode_control (start s : List Char) {n : Nat} (hn : n < 0x20) :
    Escape.unicode start ('0' :: '0' :: Nat.digitChar (n / 16) :: Nat.digitChar (n % 16) :: s) =
      .ok (Char.ofNat n, s) := by
  interval_cases n <;> rfl

/-- **A character is read as it was written.** -/
theorem readPart_writeChar (c : Char) (s : List Char) :
    readPart (writeChar c ++ s) = .ok ([c], s) := by
  unfold writeChar
  split
  case h_8 hquote hslash _ _ hfeed _ hreturn =>
    split
    · rename_i hcontrol
      rw [controlEscape, List.cons_append, readPart]
      simp only [List.cons_append, List.nil_append, Escape.read, unicode_control _ s hcontrol,
        bind, Except.bind, Char.ofNat_toNat]
    · rw [List.singleton_append, readPart, if_neg (not_or.2 ⟨hfeed, hreturn⟩)]
      exact hslash
  all_goals rfl

/-- No character is written with a quotation mark at its start. -/
theorem head?_writeChar_append (c : Char) (s : List Char) :
    (writeChar c ++ s).head? ≠ some '\x22' := by
  unfold writeChar
  split
  case h_8 hquote _ _ _ _ _ _ =>
    split
    · simp [controlEscape]
    · simpa using hquote
  all_goals simp

/-- **A string is read as it was written**, after its opening quotation mark. -/
theorem read_flatMap_writeChar (cs rest : List Char) :
    read '\x22' (cs.flatMap writeChar ++ '\x22' :: rest) = .ok (cs, rest) := by
  induction cs with
  | nil =>
    rw [List.flatMap_nil, List.nil_append, read, if_pos (List.head?_cons), List.tail_cons]
  | cons c cs ih =>
    rw [List.flatMap_cons, List.append_assoc, read, if_neg (head?_writeChar_append c _),
      shorter_of_ok (readPart_writeChar c _)]
    simp only [ih, Except.map, List.singleton_append]

end Quoted

namespace Document

/-! ### Documents of integers -/

/-- **Documents of integers**: no number in the document is a double. -/
def Integral (d : Document) : Prop := ∀ p x, d.find? p ≠ some (.scalar (.number (.double x)))

theorem Integral.child {d child : Document} {step : Step} (h : d.Integral)
    (hchild : d.child? step = some child) : child.Integral := by
  intro p x hx
  exact h (step :: p) x (by rw [find?_cons, hchild, Option.bind_some, hx])

/-! ### Strings and scalars in documents -/

theorem readString_write (text : String) (rest : List Char) :
    readString '\x22' (text.toList.flatMap Quoted.writeChar ++ '\x22' :: rest) =
      .ok (text, rest) := by
  rw [readString, Quoted.read_flatMap_writeChar]
  simp [Except.map]

theorem Integral.scalar_ne {a : Scalar} (h : (Document.scalar a).Integral) :
    ∀ x, a ≠ .number (.double x) := by
  rintro x rfl
  exact h [] x rfl

theorem Integral.item {items : List Document} (h : (Document.array items).Integral)
    {item : Document} (hitem : item ∈ items) : item.Integral := by
  obtain ⟨i, hchild⟩ := exists_child?_of_mem hitem
  exact h.child hchild

theorem Integral.member {members : Members Document} (h : (Document.object members).Integral)
    (hkeys : members.Distinct) {member : String × Document} (hmember : member ∈ members) :
    member.2.Integral :=
  h.child (child?_of_mem_members hkeys hmember)

theorem integral_scalar {a : Scalar} (h : ∀ x, a ≠ .number (.double x)) :
    (Document.scalar a).Integral := by
  rintro (_ | ⟨step, p⟩) x hx
  · exact h x (Document.scalar.inj (Option.some.inj hx))
  · cases step <;> simp [find?_cons, child?] at hx

theorem integral_array {items : List Document} (h : ∀ item ∈ items, item.Integral) :
    (Document.array items).Integral := by
  rintro (_ | ⟨_ | i, p⟩) x hx
  · simp at hx
  · simp [find?_cons, child?] at hx
  · obtain ⟨item, hitem, hx⟩ := Option.bind_eq_some_iff.1 hx
    exact h item (List.mem_of_getElem? hitem) p x hx

theorem integral_object {members : Members Document} (h : ∀ member ∈ members, member.2.Integral) :
    (Document.object members).Integral := by
  rintro (_ | ⟨name | _, p⟩) x hx
  · simp at hx
  · obtain ⟨value, hvalue, hx⟩ := Option.bind_eq_some_iff.1 hx
    exact h _ (Members.mem_of_get? hvalue) p x hx
  · simp [find?_cons, child?] at hx

/-- **A key is read as it was written**, and the blank after its colon is left. -/
theorem readKeyColon_write (layout : Layout) (key : String) (s : List Char) :
    ∃ value, readKeyColon (Quoted.write key.toList ++ layout.colon ++ s) = .ok (key, value) ∧
      skip value = skip s := by
  have hkey (t : List Char) : readKey (Quoted.write key.toList ++ t) = .ok (key, t) := by
    rw [Quoted.write, List.cons_append, List.append_assoc, readKey, if_pos (Or.inl rfl)]
    exact readString_write key t
  have hcolon (t : List Char) : skip (':' :: t) = .ok (':' :: t) :=
    Gap.skip_plain_cons (by decide) (by decide) t
  rw [List.append_assoc, readKeyColon, hkey]
  cases layout with
  | compact => exact ⟨s, by simp [Layout.colon, hcolon, bind, Except.bind], rfl⟩
  | lines indent =>
    exact ⟨' ' :: s, by simp [Layout.colon, hcolon, bind, Except.bind],
      skip_cons_of_isBlank (by decide) s⟩

/-- A sign or a digit begins a number. -/
theorem readScalar_of_number {c : Char} (hc : c = '-' ∨ c.isDigit = true) (s : List Char) :
    readScalar (c :: s) = (Literal.read (c :: s)).map fun (n, r) => (n.elim .null .number, r) := by
  have hne {other : Char} (hminus : other ≠ '-') (hdigit : other.isDigit = false) : c ≠ other := by
    rintro rfl
    rcases hc with hc | hc
    · exact hminus hc
    · simp [hdigit] at hc
  rw [readScalar, if_neg (hne (by decide) (by decide)), if_neg (hne (by decide) (by decide)),
    if_neg (hne (by decide) (by decide)),
    if_neg (not_or.2 ⟨hne (by decide) (by decide), hne (by decide) (by decide)⟩), if_pos]
  rcases hc with rfl | hc
  · simp
  · simp [hc]

/-- **A scalar is read as it was written.** -/
theorem readScalar_text {a : Scalar} (ha : ∀ x, a ≠ .number (.double x)) {rest : List Char}
    (h : Delimited rest) : readScalar (a.text ++ rest) = .ok (a, rest) := by
  rcases a with _ | (_ | _) | (n | x) | text
  · exact congrArg (Except.map (Scalar.null, ·)) (readWord_append .null "null".toList rest)
  · exact congrArg (Except.map (Scalar.bool false, ·)) (readWord_append .bool "false".toList rest)
  · exact congrArg (Except.map (Scalar.bool true, ·)) (readWord_append .bool "true".toList rest)
  · obtain ⟨c, cs, hcs, hc⟩ := Literal.exists_integerText_eq_cons n.value
    have hread := Literal.read_integerText n h
    rw [hcs, List.cons_append] at hread
    rw [Scalar.text, Number.text, hcs, List.cons_append, readScalar_of_number hc, hread]
    rfl
  · exact absurd rfl (ha x)
  · rw [Scalar.text, Quoted.write, List.cons_append, List.append_assoc, readScalar]
    simp [readString_write, Except.map]

/-- The first character of a text that is neither dropped nor closes an array. -/
structure BeginsValue (c : Char) : Prop where
  not_slash : c ≠ '/'
  not_blank : isBlank c = false
  not_bracket : c ≠ ']'

theorem BeginsValue.skip_eq {c : Char} (h : BeginsValue c) (s : List Char) :
    skip (c :: s) = .ok (c :: s) := Gap.skip_plain_cons h.not_slash h.not_blank s

theorem beginsValue_of_isDigit {c : Char} (h : c.isDigit = true) : BeginsValue c := by
  obtain ⟨hleast, hgreatest⟩ := Char.isDigit_iff_toNat.1 h
  rw [← Char.ofNat_toNat c]
  generalize c.toNat = n at hleast hgreatest ⊢
  change 48 ≤ n at hleast
  change n ≤ 57 at hgreatest
  interval_cases n <;> exact ⟨by decide, by decide, by decide⟩

theorem exists_text_eq_cons {a : Scalar} (ha : ∀ x, a ≠ .number (.double x)) :
    ∃ c cs, a.text = c :: cs ∧ BeginsValue c := by
  rcases a with _ | (_ | _) | (n | x) | text
  · exact ⟨'n', _, rfl, by decide, by decide, by decide⟩
  · exact ⟨'f', _, rfl, by decide, by decide, by decide⟩
  · exact ⟨'t', _, rfl, by decide, by decide, by decide⟩
  · obtain ⟨c, cs, hcs, hc⟩ := Literal.exists_integerText_eq_cons n.value
    refine ⟨c, cs, hcs, ?_⟩
    rcases hc with rfl | hc
    · exact ⟨by decide, by decide, by decide⟩
    · exact beginsValue_of_isDigit hc
  · exact absurd rfl (ha x)
  · exact ⟨'\x22', _, rfl, by decide, by decide, by decide⟩

theorem exists_write_eq_cons {d : Document} (h : d.Integral) (layout : Layout) (depth : Nat) :
    ∃ c cs, d.write layout depth = c :: cs ∧ BeginsValue c := by
  rcases d with a | (_ | ⟨item, rest⟩) | (_ | ⟨member, rest⟩)
  · rw [write]
    exact exists_text_eq_cons h.scalar_ne
  · exact ⟨'[', _, by rw [write], by decide, by decide, by decide⟩
  · exact ⟨'[', _, by rw [write], by decide, by decide, by decide⟩
  · exact ⟨'\x7b', _, by rw [write], by decide, by decide, by decide⟩
  · exact ⟨'\x7b', _, by rw [write], by decide, by decide, by decide⟩

/-! ### From parts to the whole -/

/-- What is dropped before a document does not matter. -/
theorem Reads.of_skip {s t r : List Char} {d : Document} (h : Reads t d r)
    (hskip : skip s = skip t) : Reads s d r := by
  cases h with
  | scalar ht hbracket hbrace hread => exact .scalar (hskip.trans ht) hbracket hbrace hread
  | array ht hitems => exact .array (hskip.trans ht) hitems
  | object ht hmembers => exact .object (hskip.trans ht) hmembers

theorem isBlank_of_mem_lineBreak {layout : Layout} {depth : Nat} {c : Char}
    (h : c ∈ layout.lineBreak depth) : isBlank c = true := by
  cases layout with
  | compact => simp [Layout.lineBreak] at h
  | lines indent =>
    rcases List.mem_cons.1 h with rfl | h
    · decide
    · rw [List.eq_of_mem_replicate h]
      decide

theorem skip_lineBreak_append (layout : Layout) (depth : Nat) (s : List Char) :
    skip (layout.lineBreak depth ++ s) = skip s :=
  skip_append (fun _ => isBlank_of_mem_lineBreak) s

/-- A closing bracket may follow a document, on its own line or not. -/
theorem delimited_lineBreak_append {layout : Layout} {depth : Nat} {c : Char} {s : List Char}
    (h : Delimited (c :: s)) : Delimited (layout.lineBreak depth ++ c :: s) := by
  cases layout with
  | compact => exact h
  | lines indent => simp [Delimited, Layout.lineBreak]

/-- **A document is read back** wherever it is written in front of something that may follow. -/
def ReadBack (layout : Layout) (depth : Nat) (d : Document) : Prop :=
  d.Integral ∧ ∀ rest, Delimited rest → Reads (d.write layout depth ++ rest) d rest

/-- Members with distinct keys are those that their text lists. -/
theorem ofPairs_of_distinct {members : Members Document} (h : members.Distinct) :
    ofPairs members = members := by
  -- each put finds a key that was not put before
  have hput (before : Members Document) (hkeys : Members.Distinct (before ++ members)) :
      members.foldl (fun others pair => Members.put others pair.1 pair.2) before =
        before ++ members := by
    clear h
    induction members generalizing before with
    | nil => exact (List.append_nil before).symm
    | cons member members ih =>
      have hnew : member.1 ∉ Members.keys before := by
        rw [Members.Distinct, Members.keys, List.map_append, List.nodup_append] at hkeys
        exact fun hmem => hkeys.2.2 _ hmem _ List.mem_cons_self rfl
      rw [List.foldl_cons, Members.put_eq_append hnew, ih, List.append_assoc]
      · rfl
      · rwa [List.append_assoc]
  exact hput [] h

section Containers

variable {layout : Layout} {depth : Nat} {tail rest : List Char}

/-- **Items are read back.** -/
theorem readsItems_write {items : List Document} (hne : items ≠ [])
    (hitems : ∀ item ∈ items, ReadBack layout depth item)
    (htail : Delimited tail) (hskip : skip tail = .ok (']' :: rest)) :
    ReadsItems (writeItems layout depth items ++ tail) items rest := by
  induction items with
  | nil => exact absurd rfl hne
  | cons item others ih =>
    obtain ⟨⟨hintegral, hitem⟩, hothers⟩ := List.forall_mem_cons.1 hitems
    obtain ⟨c, cs, hcs, hc⟩ := exists_write_eq_cons hintegral layout depth
    have hfirst (next : List Char) :
        skip (layout.lineBreak depth ++ item.write layout depth ++ next) =
          .ok (c :: (cs ++ next)) := by
      rw [List.append_assoc, skip_lineBreak_append, hcs, List.cons_append, hc.skip_eq]
    rw [writeItems]
    rcases others with _ | ⟨other, others⟩
    · have hread := hitem tail htail
      rw [hcs] at hread
      simp only [List.isEmpty_nil, if_true, List.append_nil]
      exact .last (hfirst tail) hc.not_bracket hread hskip
    · have hread := hitem (',' :: (writeItems layout depth (other :: others) ++ tail))
        (by simp [Delimited])
      rw [hcs] at hread
      simp only [List.isEmpty_cons, Bool.false_eq_true, if_false, List.append_assoc,
        List.cons_append] at hread ⊢
      rw [← List.append_assoc]
      exact .cons (hfirst _) hc.not_bracket hread (Gap.skip_plain_cons (by decide) (by decide) _)
        (ih (by simp) hothers)

/-- **Members are read back.** -/
theorem readsMembers_write {members : Members Document} (hne : members ≠ [])
    (hmembers : ∀ member ∈ members, ReadBack layout depth member.2)
    (htail : Delimited tail) (hskip : skip tail = .ok ('\x7d' :: rest)) :
    ReadsMembers (writeMembers layout depth members ++ tail) members rest := by
  induction members with
  | nil => exact absurd rfl hne
  | cons member others ih =>
    obtain ⟨key, value⟩ := member
    obtain ⟨⟨-, hvalue⟩, hothers⟩ := List.forall_mem_cons.1 hmembers
    have hfirst (next : List Char) :
        skip (layout.lineBreak depth ++ (Quoted.write key.toList ++ next)) =
          .ok ('\x22' :: (key.toList.flatMap Quoted.writeChar ++ ['\x22'] ++ next)) := by
      rw [skip_lineBreak_append, Quoted.write, List.cons_append]
      exact Gap.skip_plain_cons (by decide) (by decide) _
    have hkey (next : List Char) : ∃ after,
        readKeyColon ('\x22' :: (key.toList.flatMap Quoted.writeChar ++ ['\x22'] ++
          (layout.colon ++ next))) = .ok (key, after) ∧ skip after = skip next := by
      obtain ⟨after, hread, hskip⟩ := readKeyColon_write layout key next
      rw [Quoted.write, List.append_assoc, List.cons_append] at hread
      exact ⟨after, hread, hskip⟩
    rw [writeMembers]
    rcases others with _ | ⟨other, others⟩
    · obtain ⟨after, hread, hafter⟩ := hkey (value.write layout depth ++ tail)
      simp only [List.isEmpty_nil, if_true, List.append_nil, List.append_assoc]
      exact .last (hfirst _) (by decide) hread ((hvalue tail htail).of_skip hafter) hskip
    · obtain ⟨after, hread, hafter⟩ := hkey (value.write layout depth ++
        ',' :: (writeMembers layout depth (other :: others) ++ tail))
      simp only [List.isEmpty_cons, Bool.false_eq_true, if_false, List.append_assoc,
        List.cons_append]
      exact .cons (hfirst _) (by decide) hread
        ((hvalue _ (by simp [Delimited])).of_skip hafter)
        (Gap.skip_plain_cons (by decide) (by decide) _) (ih (by simp) hothers)

/-- **An array is read back** if its items are. -/
theorem reads_write_array {items : List Document}
    (hitems : ∀ item ∈ items, ReadBack layout (depth + 1) item) (rest : List Char) :
    Reads ((Document.array items).write layout depth ++ rest) (.array items) rest := by
  have hopen (s : List Char) : skip ('[' :: s) = .ok ('[' :: s) :=
    Gap.skip_plain_cons (by decide) (by decide) s
  have hclose : skip (']' :: rest) = .ok (']' :: rest) :=
    Gap.skip_plain_cons (by decide) (by decide) rest
  rcases items with _ | ⟨item, others⟩
  · rw [write]
    exact .array (hopen _) (.close hclose)
  · rw [write, List.cons_append, List.append_assoc, List.append_assoc]
    exact .array (hopen _) (readsItems_write (by simp) hitems
      (delimited_lineBreak_append (by simp [Delimited]))
      ((skip_lineBreak_append layout depth _).trans hclose))

/-- **An object is read back** if the values of its members are and it repeats no key. -/
theorem reads_write_object {members : Members Document} (hkeys : members.Distinct)
    (hmembers : ∀ member ∈ members, ReadBack layout (depth + 1) member.2) (rest : List Char) :
    Reads ((Document.object members).write layout depth ++ rest) (.object members) rest := by
  have hopen (s : List Char) : skip ('\x7b' :: s) = .ok ('\x7b' :: s) :=
    Gap.skip_plain_cons (by decide) (by decide) s
  have hclose : skip ('\x7d' :: rest) = .ok ('\x7d' :: rest) :=
    Gap.skip_plain_cons (by decide) (by decide) rest
  rcases members with _ | ⟨member, others⟩
  · rw [write]
    exact .object (hopen _) (.close hclose)
  · have hobject := Reads.object (hopen _) (readsMembers_write (by simp) hmembers
      (delimited_lineBreak_append (by simp [Delimited]))
      ((skip_lineBreak_append layout depth _).trans hclose))
    rw [ofPairs_of_distinct hkeys] at hobject
    rw [write, List.cons_append, List.append_assoc, List.append_assoc]
    exact hobject

end Containers

/-- **Every document of integers is read back**, if it repeats no key. -/
theorem readBack (layout : Layout) (depth : Nat) {d : Document} (hintegral : d.Integral)
    (hdistinct : d.Distinct) : ReadBack layout depth d := by
  induction d using Document.induction generalizing depth with
  | scalar a =>
    refine ⟨hintegral, fun rest hrest => ?_⟩
    obtain ⟨c, cs, hcs, hc⟩ := exists_text_eq_cons hintegral.scalar_ne
    have hread := readScalar_text hintegral.scalar_ne hrest
    rw [hcs, List.cons_append] at hread
    rw [write, hcs, List.cons_append]
    refine .scalar (hc.skip_eq _) ?_ ?_ hread
    · rintro rfl
      nomatch hread
    · rintro rfl
      nomatch hread
  | array items ih =>
    refine ⟨hintegral, fun rest _ => reads_write_array (fun item hitem => ?_) rest⟩
    exact ih item hitem _ (hintegral.item hitem) (distinctItems_iff.1 hdistinct item hitem)
  | object members ih =>
    refine ⟨hintegral, fun rest _ => reads_write_object hdistinct.1 (fun member hmember => ?_) rest⟩
    exact ih member hmember _ (hintegral.member hdistinct.1 hmember)
      (distinctMembers_iff.1 hdistinct.2 member hmember)

/-- **What is printed loads back**: the text of a document of integers that repeats no key holds
that document, also with a line end after it. -/
theorem parse_write (layout : Layout) {d : Document} (hintegral : d.Integral)
    (hdistinct : d.Distinct) {tail : List Char} (htail : tail = [] ∨ tail = ['\n']) :
    parse (String.ofList (d.write layout 0 ++ tail)) = .ok d := by
  rw [parse_eq_ok_iff, String.toList_ofList]
  refine ⟨tail, (readBack layout 0 hintegral hdistinct).2 tail ?_, ?_⟩
  · rcases htail with rfl | rfl <;> simp [Delimited]
  · rcases htail with rfl | rfl <;> rfl

end Document

end ConfigTree
