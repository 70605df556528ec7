import Allotment.Proofs.Roundtrip
import Mathlib

/-!
# Which keys are accepted, and how they may be spelled

A key is accepted exactly if it names something (`Layout.Names`, `Layout.parse_eq_ok_iff_names`): the root is
followed by the segments of a member, an item or an assignment, whose slot is denoted by some numeral.  A
number has one numeral for each sign and each number of leading zeros (`Numeral.denotes_iff_spelling`).  So
members and items have one key each, but an assignment is accepted under as many keys as there are ways to
spell its slot (`Layout.parse_eq_ok_iff_spelling`), of which only the plain one is ever built.
-/

namespace Allotment

/-! ### Spelling numbers -/

namespace Numeral

/-- The digits of a number behind some zeros, and perhaps a plus sign before all of them. -/
def spelling (sign : Bool) (zeros n : Nat) : List Char :=
  (if sign then ['+'] else []) ++ (List.replicate zeros '0' ++ write n)

theorem digit_bounds {c : Char} (h : c.isDigit) : '0'.toNat ≤ c.toNat ∧ c.toNat - '0'.toNat < 10 := by
  have hzero : '0'.toNat = 48 := rfl
  have hbounds : 48 ≤ c.toNat ∧ c.toNat ≤ 57 := by simpa [Char.isDigit, UInt32.le_iff_toNat_le] using h
  omega

theorem write_of_isDigit {c : Char} (h : c.isDigit) : write (c.toNat - '0'.toNat) = [c] := by
  obtain ⟨hlow, hlt⟩ := digit_bounds h
  have hzero : '0'.toNat = 48 := rfl
  have hchar : Nat.digitChar (c.toNat - '0'.toNat) = c := by
    rw [← Char.toNat_inj, Nat.toNat_digitChar_of_lt_ten hlt]
    omega
  rw [write, Nat.toDigits_of_lt_base hlt, hchar]

variable {cs : List Char} {n n' : Nat} {sign sign' : Bool} {zeros zeros' : Nat}

theorem isRow_zeros (zeros n : Nat) : IsRow (List.replicate zeros '0' ++ write n) n where
  nonempty := by simp [write_ne_nil]
  digits := fun c hc => by
    rcases List.mem_append.1 hc with hc | hc
    · rw [List.eq_of_mem_replicate hc]
      rfl
    · exact (isRow_write n).digits c hc
  value := by
    have hzeros : Nat.ofDigitChars 10 (List.replicate zeros '0') 0 = 0 := by
      induction zeros with
      | zero => rfl
      | succ zeros ih =>
        rw [List.replicate_succ, ofDigitChars_cons']
        exact ih
    rw [Nat.ofDigitChars_append, hzeros, ← (isRow_write n).value]

/-- A row of digits is what is written for its value, behind some zeros. -/
theorem exists_zeros_of_isRow (h : IsRow cs n) : ∃ zeros, cs = List.replicate zeros '0' ++ write n := by
  -- the last digit comes behind a shorter row, unless it is the only one
  induction cs using List.reverseRecOn generalizing n with
  | nil => exact absurd rfl h.nonempty
  | append_singleton cs c ih =>
    have hdigit : c.isDigit := h.digits c (List.mem_append_right _ List.mem_cons_self)
    have hc := write_of_isDigit hdigit
    have hvalue := h.value
    rw [Nat.ofDigitChars_append, ofDigitChars_cons', Nat.ofDigitChars_nil] at hvalue
    by_cases hcs : cs = []
    · subst hcs
      refine ⟨0, ?_⟩
      rw [hvalue, Nat.ofDigitChars_nil, Nat.zero_mul, Nat.zero_add, hc]
      rfl
    · obtain ⟨zeros, hzeros⟩ := ih ⟨hcs, fun d hd => h.digits d (List.mem_append_left _ hd), rfl⟩
      generalize Nat.ofDigitChars 10 cs 0 = m at hvalue hzeros
      rw [hzeros, List.append_assoc, ← hc, hvalue]
      rcases Nat.eq_zero_or_pos m with rfl | hm
      · refine ⟨zeros + 1, ?_⟩
        rw [List.replicate_succ', List.append_assoc, Nat.zero_mul, Nat.zero_add]
        rfl
      · refine ⟨zeros, ?_⟩
        rw [write, write, Nat.toDigits_append_toDigits (by decide) hm (digit_bounds hdigit).2, Nat.mul_comm]
        rfl

/-- A number is denoted by its spellings. -/
theorem denotes_iff_spelling : Denotes cs n ↔ ∃ sign zeros, cs = spelling sign zeros n := by
  constructor
  · rintro (h | ⟨digits, rfl, h⟩)
    · obtain ⟨zeros, hzeros⟩ := exists_zeros_of_isRow h
      exact ⟨false, zeros, hzeros⟩
    · obtain ⟨zeros, hzeros⟩ := exists_zeros_of_isRow h
      exact ⟨true, zeros, congrArg ('+' :: ·) hzeros⟩
  · rintro ⟨sign, zeros, rfl⟩
    have hrow := isRow_zeros zeros n
    cases sign with
    | false => exact .inl hrow
    | true => exact .inr ⟨_, rfl, hrow⟩

/-- Different spellings of a number differ. -/
theorem spelling_inj : spelling sign zeros n = spelling sign' zeros' n ↔ sign = sign' ∧ zeros = zeros' := by
  have hplus : ∀ {zeros} {cs : List Char}, List.replicate zeros '0' ++ write n ≠ '+' :: cs :=
    fun {zeros _} h => not_isRow_plus (h ▸ isRow_zeros zeros n)
  cases sign with
  | false =>
    cases sign' with
    | false => simp [spelling]
    | true => simpa [spelling] using hplus
  | true =>
    cases sign' with
    | false => simpa [spelling] using hplus.symm
    | true => simp [spelling]

theorem Denotes.ne_nil (h : Denotes cs n) : cs ≠ [] := by
  rcases h with h | ⟨digits, rfl, -⟩
  · exact h.nonempty
  · exact List.cons_ne_nil _ _

theorem Denotes.slash_not_mem (h : Denotes cs n) : '/' ∉ cs := by
  have hrow : ∀ {cs}, IsRow cs n → '/' ∉ cs := fun h hc => absurd (h.digits _ hc) (by decide)
  rcases h with h | ⟨digits, rfl, h⟩
  · exact hrow h
  · exact List.not_mem_cons_of_ne_of_not_mem (by decide) (hrow h)

end Numeral

/-! ### Names -/

/-- The identity is that of an assignment. -/
def Identity.HasSlot : Identity → Prop
  | .assignment _ _ _ => True
  | _ => False

namespace Layout

/-- A key names something if it is the root and, behind it, the segments of a member, an item or an
assignment; the last segment of an assignment is a numeral of its slot. -/
inductive Names (l : Layout) : String → Identity → Prop where
  | member {zone id : String} : IsSegment zone → IsSegment id →
      Names l (l.root ++ "/members/" ++ zone ++ "/" ++ id) (.member ⟨zone, id⟩)
  | item {id : String} : IsSegment id → Names l (l.root ++ "/items/" ++ id) (.item id)
  | assignment {item zone id slot : String} {n : Nat} : IsSegment item → IsSegment zone → IsSegment id →
      Numeral.Denotes slot.toList n → n < 2 ^ 32 →
      Names l (l.root ++ "/assignments/" ++ item ++ "/" ++ zone ++ "/" ++ id ++ "/" ++ slot)
        (.assignment item ⟨zone, id⟩ n)

variable {l : Layout} {key key' : String} {i : Identity}

theorem isSegment_of_denotes {slot : String} {n : Nat} (h : Numeral.Denotes slot.toList n) : IsSegment slot :=
  ⟨fun he => h.ne_nil (by rw [he]; rfl), h.slash_not_mem⟩

/-- Exactly the keys that name something are accepted, as what they name. -/
theorem parse_eq_ok_iff_names : l.parse key = .ok i ↔ l.Names key i := by
  constructor
  · intro h
    cases i with
    | member m =>
      obtain ⟨rfl, hz, hi⟩ := parse_eq_member_iff.1 h
      exact .member hz hi
    | item id =>
      obtain ⟨rfl, hi⟩ := parse_eq_item_iff.1 h
      exact .item hi
    | assignment item m n =>
      obtain ⟨slot, rfl, hi, ⟨hz, hm⟩, -, hread⟩ := parse_eq_assignment_iff.1 h
      obtain ⟨hn, hlt⟩ := Numeral.read_eq_ok_iff.1 hread
      exact .assignment hi hz hm hn hlt
  · intro h
    cases h with
    | member hz hi => exact parse_eq_member_iff.2 ⟨rfl, hz, hi⟩
    | item hi => exact parse_eq_item_iff.2 ⟨rfl, hi⟩
    | assignment hi hz hm hn hlt =>
      exact parse_eq_assignment_iff.2
        ⟨_, rfl, hi, ⟨hz, hm⟩, isSegment_of_denotes hn, Numeral.read_eq_ok_iff.2 ⟨hn, hlt⟩⟩

theorem exists_error_iff : (∃ fault, l.parse key = .error fault) ↔ ∀ i, ¬ l.Names key i := by
  simp only [← parse_eq_ok_iff_names]
  cases l.parse key with
  | error fault => simp
  | ok i => simp

theorem decode_eq_error {fault : KeyFault} {e : Entry Bytes} (h : l.parse e.key = .error fault) :
    Resource.decode l e = .error (.key e.key fault) := by
  unfold Resource.decode
  rw [h]

/-- A root loses the slashes at its end, and nothing else. -/
theorem trimmed_ofRoot (root : String) :
    (∃ k, root = (ofRoot root).root ++ String.ofList (List.replicate k '/')) ∧
      (ofRoot root).root.toList.getLast? ≠ some '/' := by
  have htrim : (ofRoot root).root.toList = root.toList.rdropWhile (· == '/') := by
    simp [ofRoot, List.rdropWhile]
  have hslashes : root.toList.rtakeWhile (· == '/') =
      List.replicate (root.toList.rtakeWhile (· == '/')).length '/' :=
    List.eq_replicate_iff.2 ⟨rfl, fun c hc => by simpa using List.mem_rtakeWhile_imp hc⟩
  refine ⟨⟨(root.toList.rtakeWhile (· == '/')).length, String.toList_inj.1 ?_⟩, fun hlast => ?_⟩
  · rw [String.toList_append, String.toList_ofList, htrim, ← hslashes, List.rdropWhile_append_rtakeWhile]
  · rw [htrim] at hlast
    have hne : root.toList.rdropWhile (· == '/') ≠ [] := by
      rintro hnil
      rw [hnil] at hlast
      exact nomatch hlast
    rw [List.getLast?_eq_some_getLast hne] at hlast
    refine List.rdropWhile_last_not _ _ hne ?_
    rw [Option.some.inj hlast]
    rfl

/-- A layout accepts exactly the keys that name something under its root, as what they name, and refuses all
others as keys.  What is built from a valid identity is among the former. -/
theorem parse_exact (root key : String) :
    (∃ k, root = (ofRoot root).root ++ String.ofList (List.replicate k '/')) ∧
      (ofRoot root).root.toList.getLast? ≠ some '/' ∧
      (∀ i, (ofRoot root).parse key = .ok i ↔ (ofRoot root).Names key i) ∧
      ((∀ i, ¬ (ofRoot root).Names key i) → ∃ fault, (ofRoot root).parse key = .error fault ∧
        ∀ e : Entry Bytes, e.key = key → Resource.decode (ofRoot root) e = .error (.key key fault)) ∧
      ∀ i : Identity, i.IsValid → (ofRoot root).parse ((ofRoot root).keyOf i) = .ok i := by
  obtain ⟨hslashes, hlast⟩ := trimmed_ofRoot root
  refine ⟨hslashes, hlast, fun i => parse_eq_ok_iff_names, fun h => ?_, fun i => (ofRoot root).parse_keyOf⟩
  obtain ⟨fault, hfault⟩ := exists_error_iff.2 h
  refine ⟨fault, hfault, ?_⟩
  rintro e rfl
  exact decode_eq_error hfault

/-- A root with slashes at its end, a slot with a sign and zeros, and one that is too large. -/
theorem parse_exact_of_slots :
    (ofRoot "/r//").root = "/r" ∧
      (ofRoot "/r//").parse "/r/assignments/items/z/m/+007" = .ok (.assignment "items" ⟨"z", "m"⟩ 7) ∧
      (∃ fault, (ofRoot "/r//").parse "/r/assignments/items/z/m/4294967296" = .error fault) ∧
      (ofRoot "/r//").parse "/r/assignments/items/z/m/4294967295" =
        .ok (.assignment "items" ⟨"z", "m"⟩ 4294967295) := by
  have hroot : (ofRoot "/r//").root = "/r" := by decide
  have hlarge : (ofRoot "/r//").parse "/r/assignments/items/z/m/4294967296" =
      .error (.badSlot .tooLarge) := by decide +kernel
  refine ⟨hroot, ?_, ?_, ?_⟩
  · refine ((parse_exact "/r//" _).2.2.1 _).2 ?_
    have hslot : Numeral.Denotes "+007".toList 7 := Numeral.denotes_iff_spelling.2 ⟨true, 2, by decide⟩
    exact @Names.assignment _ "items" "z" "m" "+007" 7 (by decide) (by decide) (by decide) hslot (by decide)
  · obtain ⟨-, -, haccepted, hrefused, -⟩ := parse_exact "/r//" "/r/assignments/items/z/m/4294967296"
    obtain ⟨fault, hfault, -⟩ := hrefused fun i hi => by
      rw [← haccepted i, hlarge] at hi
      exact nomatch hi
    exact ⟨fault, hfault⟩
  · have hvalid : (Identity.assignment "items" ⟨"z", "m"⟩ 4294967295).IsValid :=
      ⟨by decide, by decide, by decide⟩
    exact (parse_exact "/r//" "").2.2.2.2 _ hvalid

/-! ### Spelling keys -/

/-- The key of an identity whose slot, if it has one, is spelled with some zeros and perhaps a sign. -/
def spelling (l : Layout) (sign : Bool) (zeros : Nat) : Identity → String
  | .assignment item holder slot =>
    l.holdingScope item holder ++ String.ofList (Numeral.spelling sign zeros slot)
  | i => l.keyOf i

variable {sign sign' : Bool} {zeros zeros' : Nat}

theorem spelling_plain (l : Layout) (i : Identity) : l.spelling false 0 i = l.keyOf i := by
  cases i with
  | member m => rfl
  | item id => rfl
  | assignment item holder slot => exact (l.assignmentKey_eq item holder slot).symm

theorem spelling_inj : l.spelling sign zeros i = l.spelling sign' zeros' i ↔
    (i.HasSlot → sign = sign' ∧ zeros = zeros') := by
  cases i with
  | member m => simp [spelling, Identity.HasSlot]
  | item id => simp [spelling, Identity.HasSlot]
  | assignment item holder slot =>
    rw [← Numeral.spelling_inj (n := slot), ← String.toList_inj]
    simp [spelling, Identity.HasSlot]

/-- A key is accepted exactly if it is some spelling of a valid identity. -/
theorem parse_eq_ok_iff_spelling :
    l.parse key = .ok i ↔ i.IsValid ∧ ∃ sign zeros, key = l.spelling sign zeros i := by
  constructor
  · intro h
    cases parse_eq_ok_iff_names.1 h with
    | member hz hi => exact ⟨⟨hz, hi⟩, false, 0, rfl⟩
    | item hi => exact ⟨hi, false, 0, rfl⟩
    | assignment hi hz hm hn hlt =>
      obtain ⟨sign, zeros, hslot⟩ := Numeral.denotes_iff_spelling.1 hn
      refine ⟨⟨hi, ⟨hz, hm⟩, hlt⟩, sign, zeros, ?_⟩
      rw [spelling, ← hslot, String.ofList_toList]
      rfl
  · rintro ⟨hvalid, sign, zeros, rfl⟩
    cases i with
    | member m => exact l.parse_keyOf hvalid
    | item id => exact l.parse_keyOf hvalid
    | assignment item m n =>
      obtain ⟨hi, ⟨hz, hm⟩, hlt⟩ := hvalid
      have hn : Numeral.Denotes (String.ofList (Numeral.spelling sign zeros n)).toList n := by
        rw [String.toList_ofList]
        exact Numeral.denotes_iff_spelling.2 ⟨sign, zeros, rfl⟩
      exact parse_eq_ok_iff_names.2 (.assignment hi hz hm hn hlt)

/-- The key is the one that is built for what it stands for. -/
def IsPlain (l : Layout) (key : String) : Prop :=
  ∀ i, l.parse key = .ok i → l.keyOf i = key

theorem isPlain_assignmentKey (l : Layout) {item : String} {m : MemberId} (hi : IsSegment item)
    (hm : m.IsValid) (n : Nat) : l.IsPlain (l.assignmentKey item m n) := by
  intro i h
  obtain ⟨rfl, -⟩ := (parse_assignmentKey_eq_ok_iff hi hm).1 h
  rfl

/-- If all its keys are plain, then a snapshot has each assignment once. -/
theorem nodup_identities_of_plain {s : Snapshot} (hs : s.IsFaithful)
    (hplain : ∀ a ∈ s.assignments, s.layout.IsPlain a.key) :
    (s.assignments.map fun a => (a.value.item, a.value.holder, a.value.slot)).Nodup := by
  have hkeys : (s.assignments.map (·.key)).Nodup := s.nodup_view _ _
  refine List.Nodup.map_on (fun a ha a' ha' he => List.inj_on_of_nodup_map hkeys ha ha' ?_) hkeys.of_map
  obtain ⟨hitem, hholder, hslot⟩ : a.value.item = a'.value.item ∧ a.value.holder = a'.value.holder ∧
      a.value.slot = a'.value.slot := by simpa using he
  rw [← hplain a ha _ (Snapshot.parse_of_mem_assignments hs ha), hitem, hholder, hslot,
    hplain a' ha' _ (Snapshot.parse_of_mem_assignments hs ha')]

/-- Two keys of one identity are equal if they spell its slot alike, and a key is plain unless it spells the
slot with a sign or with leading zeros.  Where all keys are plain, a snapshot has no two assignments of one
item, member and slot. -/
theorem spelled_of_parse (h : l.parse key = .ok i) (h' : l.parse key' = .ok i) :
    (∃ sign zeros sign' zeros', key = l.spelling sign zeros i ∧ key' = l.spelling sign' zeros' i ∧
      (key = key' ↔ (i.HasSlot → sign = sign' ∧ zeros = zeros')) ∧
      (l.keyOf i = key ↔ (i.HasSlot → sign = false ∧ zeros = 0))) ∧
    ∀ revision es s, Snapshot.ofEntries l revision es = .ok s →
      (∀ a ∈ s.assignments, l.IsPlain a.key) →
        (s.assignments.map fun a => (a.value.item, a.value.holder, a.value.slot)).Nodup := by
  obtain ⟨-, sign, zeros, rfl⟩ := parse_eq_ok_iff_spelling.1 h
  obtain ⟨-, sign', zeros', rfl⟩ := parse_eq_ok_iff_spelling.1 h'
  refine ⟨⟨sign, zeros, sign', zeros', rfl, rfl, spelling_inj, ?_⟩, fun revision es s hs hplain => ?_⟩
  · rw [← spelling_plain, eq_comm, spelling_inj]
  · obtain ⟨rfl, -, -⟩ := Snapshot.ofEntries_eq_ok hs
    exact nodup_identities_of_plain (Snapshot.faithful_of_ofEntries hs) hplain

/-- Two keys of one assignment. -/
def paddedEntries : List (Entry Bytes) :=
  [⟨⟨Assignment.encode true, 1, 1⟩, "/r/assignments/job/a/m/7"⟩,
    ⟨⟨Assignment.encode true, 2, 2⟩, "/r/assignments/job/a/m/+07"⟩]

/-- What both keys stand for. -/
def paddedIdentity : Identity :=
  .assignment "job" ⟨"a", "m"⟩ 7

theorem parse_paddedEntries : ∀ e ∈ paddedEntries, (Layout.mk "/r").parse e.key = .ok paddedIdentity := by
  decide +kernel

/-- The first key is the one that is built, and the second has a sign or zeros. -/
theorem spelled_of_paddedEntries :
    (Layout.mk "/r").keyOf paddedIdentity = "/r/assignments/job/a/m/7" ∧
      ∃ sign zeros, "/r/assignments/job/a/m/+07" = (Layout.mk "/r").spelling sign zeros paddedIdentity ∧
        ¬ (sign = false ∧ zeros = 0) := by
  have hbuilt : (Layout.mk "/r").keyOf paddedIdentity = "/r/assignments/job/a/m/7" := by decide
  have hpadded := parse_paddedEntries _ (List.mem_cons_of_mem _ List.mem_cons_self)
  obtain ⟨⟨sign, zeros, -, -, hkey, -, -, hplain⟩, -⟩ := spelled_of_parse hpadded hpadded
  refine ⟨hbuilt, sign, zeros, hkey, fun hnone => ?_⟩
  have heq := hplain.2 fun _ => hnone
  rw [hbuilt] at heq
  exact absurd heq (by decide)

/-- Different keys are accepted for one assignment, and a snapshot has it twice. -/
theorem exists_padded :
    ∃ s, Snapshot.ofEntries ⟨"/r"⟩ 2 paddedEntries = .ok s ∧
      (∀ e ∈ paddedEntries, (Layout.mk "/r").parse e.key = .ok paddedIdentity) ∧
      (paddedEntries.map (·.key)).Nodup ∧
      (Layout.mk "/r").keyOf paddedIdentity ≠ "/r/assignments/job/a/m/+07" ∧
      s.assignments.map (fun a => (a.key, (Resource.assignment a.value).identity)) =
        [("/r/assignments/job/a/m/+07", paddedIdentity), ("/r/assignments/job/a/m/7", paddedIdentity)] := by
  have hfacts : (Snapshot.ofEntries ⟨"/r"⟩ 2 paddedEntries).toOption.map (fun s =>
      s.assignments.map fun a => (a.key, (Resource.assignment a.value).identity)) =
        some [("/r/assignments/job/a/m/+07", paddedIdentity), ("/r/assignments/job/a/m/7", paddedIdentity)] := by
    simp only [Snapshot.assignments, Snapshot.view, Snapshot.under_eq]
    cbv
  obtain ⟨s, hs, hassignments⟩ := Option.map_eq_some_iff.1 hfacts
  exact ⟨s, toOption_eq_some_iff.1 hs, parse_paddedEntries, by decide, by decide, hassignments⟩

end Layout

end Allotment
