import Allotment.Layout

/-!
# Keys and identities

A numeral is read as the number that it denotes (`Numeral.read_eq_ok_iff`), and a written number as itself
(`read_write_eq_ok_iff`).  A key is parsed exactly if it is the scope of the layout followed by the segments
of its identity (`Layout.parse_eq_member_iff`, `parse_eq_item_iff`, `parse_eq_assignment_iff`).  Hence the
keys of an item are told apart from all others by the scope of the item (`startsWith_itemScope_iff`).
-/

namespace Allotment

/-! ### Numerals -/

namespace Numeral

theorem le_ofDigitChars (cs : List Char) (acc : Nat) : acc ≤ Nat.ofDigitChars 10 cs acc := by
  rw [Nat.ofDigitChars_eq_ofDigitChars_zero]
  have h : 1 ≤ 10 ^ cs.length := Nat.pow_pos (by decide)
  calc acc = 1 * acc := (Nat.one_mul acc).symm
    _ ≤ 10 ^ cs.length * acc := Nat.mul_le_mul_right _ h
    _ ≤ _ := Nat.le_add_right _ _

theorem ofDigitChars_cons' (c : Char) (cs : List Char) (acc : Nat) :
    Nat.ofDigitChars 10 (c :: cs) acc = Nat.ofDigitChars 10 cs (acc * 10 + (c.toNat - '0'.toNat)) := by
  rw [Nat.ofDigitChars_cons, Nat.mul_comm]

/-- A row of digits is read exactly if its value stays below the limit. -/
theorem readDigits_eq_ok_iff {limit : Nat} {cs : List Char} {acc n : Nat} (hacc : acc < limit) :
    readDigits limit cs acc = .ok n ↔
      (∀ c ∈ cs, c.isDigit) ∧ n = Nat.ofDigitChars 10 cs acc ∧ n < limit := by
  induction cs generalizing acc with
  | nil =>
    simp only [readDigits, Except.ok.injEq, List.not_mem_nil, false_implies, implies_true, true_and,
      Nat.ofDigitChars_nil]
    constructor
    · rintro rfl
      exact ⟨rfl, hacc⟩
    · rintro ⟨rfl, -⟩
      rfl
  | cons c cs ih =>
    simp only [readDigits, digit?]
    by_cases hc : c.isDigit
    · simp only [hc, ↓reduceIte, List.mem_cons, forall_eq_or_imp, true_and]
      rw [ofDigitChars_cons']
      split
      next hlt => exact ih hlt
      next hlt =>
        simp only [reduceCtorEq, false_iff]
        rintro ⟨-, rfl, hn⟩
        exact hlt (Nat.lt_of_le_of_lt (le_ofDigitChars _ _) hn)
    · simp [hc]

/-- Some decimal digits, and their value. -/
structure IsRow (cs : List Char) (n : Nat) : Prop where
  nonempty : cs ≠ []
  digits : ∀ c ∈ cs, c.isDigit
  value : n = Nat.ofDigitChars 10 cs 0

/-- A numeral is a row of digits, perhaps behind a plus sign. -/
def Denotes (cs : List Char) (n : Nat) : Prop :=
  IsRow cs n ∨ ∃ digits, cs = '+' :: digits ∧ IsRow digits n

section Denotes

variable {limit n m : Nat} {cs : List Char}

theorem not_isRow_plus : ¬ IsRow ('+' :: cs) n := fun h =>
  absurd (h.digits '+' List.mem_cons_self) (by decide)

theorem readDigits_eq_ok_iff_isRow (hne : cs ≠ []) :
    readDigits limit cs 0 = .ok n ↔ IsRow cs n ∧ n < limit := by
  by_cases h0 : 0 < limit
  · rw [readDigits_eq_ok_iff h0]
    exact ⟨fun ⟨hd, hv, hn⟩ => ⟨⟨hne, hd, hv⟩, hn⟩, fun ⟨⟨_, hd, hv⟩, hn⟩ => ⟨hd, hv, hn⟩⟩
  · -- nothing is below the limit
    obtain ⟨c, cs, rfl⟩ := List.exists_cons_of_ne_nil hne
    have hfull : ∀ d, ¬ 0 * 10 + d < limit := fun d => by omega
    have hn : ¬ n < limit := by omega
    simp only [readDigits, hfull, hn, and_false, iff_false, ↓reduceIte]
    split <;> exact fun h => nomatch h

/-- Exactly the numerals of numbers below the limit are read. -/
theorem read_eq_ok_iff : read limit cs = .ok n ↔ Denotes cs n ∧ n < limit := by
  unfold read Denotes
  split
  next =>
    refine ⟨(nomatch ·), ?_⟩
    rintro ⟨h | ⟨_, h, _⟩, -⟩
    · exact absurd rfl h.nonempty
    · exact nomatch h
  next =>
    refine ⟨(nomatch ·), ?_⟩
    rintro ⟨h | ⟨_, h, hrow⟩, -⟩
    · exact absurd h not_isRow_plus
    · exact absurd (List.cons.inj h).2.symm hrow.nonempty
  next cs hne =>
    rw [readDigits_eq_ok_iff_isRow (fun he => hne (by rw [he]))]
    refine and_congr_left fun _ => ⟨fun h => .inr ⟨cs, rfl, h⟩, ?_⟩
    rintro (h | ⟨_, h, hrow⟩)
    · exact absurd h not_isRow_plus
    · rwa [(List.cons.inj h).2]
  next hne _ hplus =>
    rw [readDigits_eq_ok_iff_isRow hne]
    refine and_congr_left fun _ => ⟨.inl, ?_⟩
    rintro (h | ⟨digits, h, _⟩)
    · exact h
    · exact absurd h (hplus digits)

/-- A number that is read is below the limit. -/
theorem lt_of_read (h : read limit cs = .ok n) : n < limit :=
  (read_eq_ok_iff.1 h).2

theorem isRow_write (n : Nat) : IsRow (write n) n where
  nonempty := Nat.toDigits_ne_nil
  digits := fun _ hc => Nat.isDigit_of_mem_toDigits (by decide) (by decide) hc
  value := Nat.ofDigitChars_ten_toDigits.symm

theorem denotes_write_iff : Denotes (write n) m ↔ m = n := by
  have hrow := isRow_write n
  constructor
  · rintro (h | ⟨digits, h, -⟩)
    · rw [h.value, ← hrow.value]
    · exact absurd (h ▸ hrow) not_isRow_plus
  · rintro rfl
    exact .inl hrow

/-- A written number is read exactly if it is below the limit, and then as itself. -/
theorem read_write_eq_ok_iff : read limit (write n) = .ok m ↔ m = n ∧ n < limit := by
  rw [read_eq_ok_iff, denotes_write_iff]
  refine and_congr_right fun h => ?_
  rw [h]

end Denotes

theorem text_injective {n m : Nat} (h : text n = text m) : n = m := by
  have hw : write n = write m := String.ofList_injective h
  rw [← Nat.ofDigitChars_ten_toDigits (n := n), ← Nat.ofDigitChars_ten_toDigits (n := m)]
  exact congrArg (Nat.ofDigitChars 10 · 0) hw

theorem write_ne_nil (n : Nat) : write n ≠ [] :=
  (isRow_write n).nonempty

theorem slash_not_mem_write (n : Nat) : '/' ∉ write n := fun h =>
  absurd ((isRow_write n).digits _ h) (by decide)

end Numeral

/-! ### Segments -/

/-- What may stand between two slashes of a key. -/
def IsSegment (t : String) : Prop :=
  t ≠ "" ∧ '/' ∉ t.toList

instance (t : String) : Decidable (IsSegment t) :=
  inferInstanceAs (Decidable (_ ∧ _))

/-- The zone and the name of a member are segments. -/
def MemberId.IsValid (m : MemberId) : Prop :=
  IsSegment m.zone ∧ IsSegment m.id

theorem MemberId.eq_of_toList {m m' : MemberId} (hz : m.zone.toList = m'.zone.toList)
    (hi : m.id.toList = m'.id.toList) : m = m' := by
  cases m
  cases m'
  rw [MemberId.mk.injEq]
  exact ⟨String.toList_inj.1 hz, String.toList_inj.1 hi⟩

theorem isSegment_numeral (n : Nat) : IsSegment (Numeral.text n) := by
  refine ⟨fun h => Numeral.write_ne_nil n ?_, ?_⟩
  · simpa [Numeral.text] using congrArg String.toList h
  · simpa [Numeral.text] using Numeral.slash_not_mem_write n

theorem slash_not_mem_of_mem_splitOn {s t : List Char} (h : t ∈ s.splitOn '/') : '/' ∉ t := by
  induction s generalizing t with
  | nil =>
    simp only [List.splitOn_nil, List.mem_singleton] at h
    simp [h]
  | cons c cs ih =>
    rw [List.splitOn_cons_eq_if_modifyHead] at h
    split at h
    · rcases List.mem_cons.1 h with rfl | h
      · simp
      · exact ih h
    next hc =>
      obtain ⟨u, us, hu⟩ := List.exists_cons_of_ne_nil (List.splitOn_ne_nil '/' cs)
      rw [hu, List.modifyHead_cons] at h
      rcases List.mem_cons.1 h with rfl | h
      · have hslash : '/' ≠ c := fun e => hc (by simp [← e])
        simp [hslash, ih (hu ▸ List.mem_cons_self)]
      · exact ih (hu ▸ List.mem_cons_of_mem _ h)

namespace Layout

/-- The key made of the scope and some segments. -/
def spell (l : Layout) (segments : List String) : String :=
  l.scope ++ String.ofList (['/'].intercalate (segments.map String.toList))

theorem toList_spell (l : Layout) (segments : List String) :
    (l.spell segments).toList = l.scope.toList ++ ['/'].intercalate (segments.map String.toList) := by
  simp [spell]

theorem segments?_eq_some_iff {l : Layout} {key : String} {segments : List String} :
    l.segments? key = some segments ↔
      key = l.spell segments ∧ segments ≠ [] ∧ ∀ t ∈ segments, '/' ∉ t.toList := by
  unfold segments?
  constructor
  · intro h
    split at h
    next hs =>
      obtain ⟨rest, hrest⟩ := String.startsWith_string_iff.1 hs
      have hdrop : key.toList.drop l.scope.length = rest := by
        rw [← hrest, ← String.length_toList, List.drop_left]
      rw [hdrop, Option.some.injEq] at h
      subst h
      have hmap : ((rest.splitOn '/').map String.ofList).map String.toList = rest.splitOn '/' := by
        simp
      refine ⟨?_, by simp, ?_⟩
      · apply String.toList_inj.1
        rw [toList_spell, hmap, List.intercalate_splitOn, hrest]
      · intro t ht
        obtain ⟨u, hu, rfl⟩ := List.mem_map.1 ht
        simpa using slash_not_mem_of_mem_splitOn hu
    next => exact nomatch h
  · rintro ⟨rfl, hne, hslash⟩
    have hs : (l.spell segments).startsWith l.scope := by
      rw [String.startsWith_string_iff, toList_spell]
      exact List.prefix_append _ _
    rw [if_pos hs, toList_spell, ← String.length_toList, List.drop_left,
      List.splitOn_intercalate '/' (by simpa using hslash) (by simpa using hne)]
    simp

theorem parse_spell {l : Layout} {segments : List String} (hne : segments ≠ [])
    (hseg : ∀ t ∈ segments, IsSegment t) : l.parse (l.spell segments) = identify segments := by
  unfold parse
  rw [segments?_eq_some_iff.2 ⟨rfl, hne, fun t ht => (hseg t ht).2⟩]
  have hany : ¬ segments.any String.isEmpty := by
    rw [List.any_eq_true]
    rintro ⟨t, ht, he⟩
    exact (hseg t ht).1 (by simpa using he)
  simp only [hany, Bool.false_eq_true, ↓reduceIte]

/-- A key is parsed exactly if it is spelled by segments that stand for its identity. -/
theorem parse_eq_ok_iff {l : Layout} {key : String} {identity : Identity} :
    l.parse key = .ok identity ↔
      ∃ segments, key = l.spell segments ∧ (∀ t ∈ segments, IsSegment t) ∧
        identify segments = .ok identity := by
  constructor
  · intro h
    unfold parse at h
    split at h
    next => exact nomatch h
    next segments hs =>
      split at h
      next => exact nomatch h
      next hne =>
        obtain ⟨hk, -, hslash⟩ := segments?_eq_some_iff.1 hs
        refine ⟨segments, hk, fun t ht => ⟨fun he => hne ?_, hslash t ht⟩, h⟩
        exact List.any_eq_true.2 ⟨t, ht, by simp [he]⟩
  · rintro ⟨segments, hk, hseg, hid⟩
    have hne : segments ≠ [] := by
      rintro rfl
      exact nomatch hid
    rw [hk, parse_spell hne hseg, hid]

/-! ### Members, items and assignments -/

theorem identify_eq_member_iff {segments : List String} {m : MemberId} :
    identify segments = .ok (.member m) ↔ segments = ["members", m.zone, m.id] := by
  constructor
  · intro h
    unfold identify at h
    split at h
    next =>
      simp only [Except.ok.injEq, Identity.member.injEq] at h
      rw [← h]
    next => exact absurd h (by simp)
    next => split at h <;> exact absurd h (by simp)
    next => exact nomatch h
  · rintro rfl
    rfl

theorem identify_eq_item_iff {segments : List String} {item : String} :
    identify segments = .ok (.item item) ↔ segments = ["items", item] := by
  constructor
  · intro h
    unfold identify at h
    split at h
    next => exact absurd h (by simp)
    next => simpa using h
    next => split at h <;> exact absurd h (by simp)
    next => exact nomatch h
  · rintro rfl
    rfl

theorem identify_eq_assignment_iff {segments : List String} {item : String} {m : MemberId}
    {n : Nat} :
    identify segments = .ok (.assignment item m n) ↔
      ∃ slot, segments = ["assignments", item, m.zone, m.id, slot] ∧
        Numeral.read slotLimit slot.toList = .ok n := by
  constructor
  · intro h
    unfold identify at h
    split at h
    next => exact absurd h (by simp)
    next => exact absurd h (by simp)
    next slot =>
      split at h
      next k hk =>
        simp only [Except.ok.injEq, Identity.assignment.injEq] at h
        obtain ⟨rfl, rfl, rfl⟩ := h
        exact ⟨slot, rfl, hk⟩
      next => exact absurd h (by simp)
    next => exact nomatch h
  · rintro ⟨slot, rfl, hn⟩
    simp only [identify, hn]

theorem spell_member (l : Layout) (m : MemberId) :
    l.spell ["members", m.zone, m.id] = l.memberKey m := by
  apply String.toList_inj.1
  simp [toList_spell, memberKey, scope, List.intercalate_cons_cons]

theorem spell_item (l : Layout) (item : String) : l.spell ["items", item] = l.itemKey item := by
  apply String.toList_inj.1
  simp [toList_spell, itemKey, scope, List.intercalate_cons_cons]

theorem spell_assignment (l : Layout) (item : String) (m : MemberId) (slot : String) :
    l.spell ["assignments", item, m.zone, m.id, slot] =
      l.itemScope item ++ m.zone ++ "/" ++ m.id ++ "/" ++ slot := by
  apply String.toList_inj.1
  simp [toList_spell, itemScope, scope, List.intercalate_cons_cons]

/-- Exactly the keys built from valid members stand for members. -/
theorem parse_eq_member_iff {l : Layout} {key : String} {m : MemberId} :
    l.parse key = .ok (.member m) ↔ key = l.memberKey m ∧ m.IsValid := by
  rw [parse_eq_ok_iff]
  constructor
  · rintro ⟨segments, hk, hseg, hid⟩
    obtain rfl := identify_eq_member_iff.1 hid
    rw [spell_member] at hk
    exact ⟨hk, hseg _ (by simp), hseg _ (by simp)⟩
  · rintro ⟨rfl, hz, hi⟩
    refine ⟨_, (spell_member l m).symm, ?_, identify_eq_member_iff.2 rfl⟩
    simpa [hz, hi] using show IsSegment "members" by decide

/-- Exactly the keys built from segments stand for items. -/
theorem parse_eq_item_iff {l : Layout} {key item : String} :
    l.parse key = .ok (.item item) ↔ key = l.itemKey item ∧ IsSegment item := by
  rw [parse_eq_ok_iff]
  constructor
  · rintro ⟨segments, hk, hseg, hid⟩
    obtain rfl := identify_eq_item_iff.1 hid
    rw [spell_item] at hk
    exact ⟨hk, hseg _ (by simp)⟩
  · rintro ⟨rfl, hi⟩
    refine ⟨_, (spell_item l item).symm, ?_, identify_eq_item_iff.2 rfl⟩
    simpa [hi] using show IsSegment "items" by decide

/-- A key stands for an assignment if its last segment is some numeral of the slot. -/
theorem parse_eq_assignment_iff {l : Layout} {key item : String} {m : MemberId} {n : Nat} :
    l.parse key = .ok (.assignment item m n) ↔
      ∃ slot, key = l.itemScope item ++ m.zone ++ "/" ++ m.id ++ "/" ++ slot ∧
        IsSegment item ∧ m.IsValid ∧ IsSegment slot ∧
        Numeral.read slotLimit slot.toList = .ok n := by
  rw [parse_eq_ok_iff]
  constructor
  · rintro ⟨segments, hk, hseg, hid⟩
    obtain ⟨slot, rfl, hn⟩ := identify_eq_assignment_iff.1 hid
    rw [spell_assignment] at hk
    exact ⟨slot, hk, hseg _ (by simp), ⟨hseg _ (by simp), hseg _ (by simp)⟩, hseg _ (by simp), hn⟩
  · rintro ⟨slot, rfl, hi, ⟨hz, hm⟩, hs, hn⟩
    refine ⟨_, (spell_assignment l item m slot).symm, ?_,
      identify_eq_assignment_iff.2 ⟨slot, rfl, hn⟩⟩
    simpa [hi, hz, hm, hs] using show IsSegment "assignments" by decide

theorem assignmentKey_eq (l : Layout) (item : String) (m : MemberId) (n : Nat) :
    l.assignmentKey item m n =
      l.itemScope item ++ m.zone ++ "/" ++ m.id ++ "/" ++ Numeral.text n := by
  simp [assignmentKey, itemScope]

/-- A built assignment key stands for the assignment it was built from, provided that the slot is
below the limit, and otherwise for nothing. -/
theorem parse_assignmentKey_eq_ok_iff {l : Layout} {item : String} {m : MemberId} {n : Nat}
    {identity : Identity} (hi : IsSegment item) (hm : m.IsValid) :
    l.parse (l.assignmentKey item m n) = .ok identity ↔
      identity = .assignment item m n ∧ n < slotLimit := by
  have hseg : ∀ t ∈ ["assignments", item, m.zone, m.id, Numeral.text n], IsSegment t := by
    simpa [hi, hm.1, hm.2, isSegment_numeral] using show IsSegment "assignments" by decide
  rw [assignmentKey_eq, ← spell_assignment, parse_spell (by simp) hseg]
  simp only [identify]
  have hread : (Numeral.text n).toList = Numeral.write n := by simp [Numeral.text]
  rw [hread]
  split
  next k hk =>
    obtain ⟨rfl, hn⟩ := Numeral.read_write_eq_ok_iff.1 hk
    simp [hn, eq_comm]
  next hk =>
    have hn : ¬ n < slotLimit := fun hn => by
      rw [Numeral.read_write_eq_ok_iff.2 ⟨rfl, hn⟩] at hk
      exact nomatch hk
    simp [hn]

theorem append_slash_inj {a b c d : List Char} (hc : '/' ∉ c) (hd : '/' ∉ d)
    (h : a ++ '/' :: b = c ++ '/' :: d) : a = c ∧ b = d := by
  induction a generalizing c with
  | nil =>
    cases c with
    | nil => exact ⟨rfl, (List.cons.inj h).2⟩
    | cons x c => exact absurd ((List.cons.inj h).1 ▸ List.mem_cons_self) hc
  | cons x a ih =>
    cases c with
    | nil =>
      have hmem : '/' ∈ d := by
        rw [← (List.cons.inj h).2]
        simp
      exact absurd hmem hd
    | cons y c =>
      simp only [List.cons_append, List.cons.injEq] at h
      have := ih (fun hm => hc (List.mem_cons_of_mem _ hm)) h.2
      exact ⟨by rw [h.1, this.1], this.2⟩

/-- A valid member is known by its key. -/
theorem memberKey_injective {l : Layout} {m m' : MemberId} (hm : m.IsValid)
    (h : l.memberKey m' = l.memberKey m) : m' = m := by
  have hl : (l.memberKey m').toList = (l.memberKey m).toList := congrArg String.toList h
  simp only [memberKey, String.toList_append, List.append_assoc, List.append_cancel_left_eq] at hl
  obtain ⟨hz, hi⟩ := append_slash_inj hm.1.2 hm.2.2 (by simpa using hl)
  exact MemberId.eq_of_toList hz hi

theorem itemKey_injective {l : Layout} {item item' : String} (h : l.itemKey item' = l.itemKey item) :
    item' = item := by
  have hl : (l.itemKey item').toList = (l.itemKey item).toList := congrArg String.toList h
  simp only [itemKey, String.toList_append, List.append_assoc, List.append_cancel_left_eq] at hl
  exact String.toList_inj.1 hl

/-! ### Scopes -/

/-- What every assignment key of one item and holder starts with. -/
def holdingScope (l : Layout) (item : String) (m : MemberId) : String :=
  l.itemScope item ++ m.zone ++ "/" ++ m.id ++ "/"

theorem prefix_segment_iff {a b x y : List Char} (ha : '/' ∉ a) (hb : '/' ∉ b) :
    (a ++ '/' :: x) <+: (b ++ '/' :: y) ↔ a = b ∧ x <+: y := by
  induction a generalizing b with
  | nil =>
    cases b with
    | nil => simp
    | cons c b =>
      have hc : '/' ≠ c := fun e => hb (by simp [← e])
      simp [hc]
  | cons c a ih =>
    cases b with
    | nil =>
      have hc : c ≠ '/' := fun e => ha (by simp [e])
      simp [hc]
    | cons d b =>
      simp only [List.mem_cons, not_or] at ha hb
      simp [List.cons_prefix_cons, ih ha.2 hb.2, and_assoc]

theorem toList_itemScope (l : Layout) (item : String) :
    (l.itemScope item).toList =
      (l.root.toList ++ "/assignments/".toList) ++ (item.toList ++ '/' :: []) := by
  simp [itemScope]

theorem toList_holdingScope (l : Layout) (item : String) (m : MemberId) :
    (l.holdingScope item m).toList =
      (l.root.toList ++ "/assignments/".toList) ++
        (item.toList ++ '/' :: (m.zone.toList ++ '/' :: (m.id.toList ++ '/' :: []))) := by
  simp [holdingScope, itemScope]

theorem toList_of_parse_assignment {l : Layout} {key item : String} {m : MemberId} {n : Nat}
    (h : l.parse key = .ok (.assignment item m n)) :
    ∃ slot : List Char, key.toList = (l.root.toList ++ "/assignments/".toList) ++
        (item.toList ++ '/' :: (m.zone.toList ++ '/' :: (m.id.toList ++ '/' :: slot))) ∧
      IsSegment item ∧ m.IsValid := by
  obtain ⟨slot, rfl, hi, hm, -⟩ := parse_eq_assignment_iff.1 h
  exact ⟨slot.toList, by simp [itemScope], hi, hm⟩

/-- An assignment key lies in the scope of its own item only. -/
theorem startsWith_itemScope_iff {l : Layout} {key item item' : String} {m : MemberId} {n : Nat}
    (h : l.parse key = .ok (.assignment item m n)) (hi : IsSegment item') :
    key.startsWith (l.itemScope item') ↔ item = item' := by
  obtain ⟨slot, hk, hitem, -⟩ := toList_of_parse_assignment h
  rw [String.startsWith_string_iff, hk, toList_itemScope, List.prefix_append_right_inj,
    prefix_segment_iff hi.2 hitem.2]
  simp [String.toList_inj, eq_comm]

/-- The scope of a holder lies in the scope of the item. -/
theorem startsWith_itemScope_of_holdingScope {l : Layout} {key item : String} {m : MemberId}
    (h : key.startsWith (l.holdingScope item m) = true) : key.startsWith (l.itemScope item) = true := by
  rw [String.startsWith_string_iff] at h ⊢
  refine List.IsPrefix.trans ?_ h
  simp [holdingScope]

/-- The scopes of two items have no key in common. -/
theorem eq_of_startsWith_itemScope {l : Layout} {key item item' : String} (hi : IsSegment item)
    (hi' : IsSegment item') (h : key.startsWith (l.itemScope item))
    (h' : key.startsWith (l.itemScope item')) : item = item' := by
  rw [String.startsWith_string_iff, toList_itemScope] at h h'
  obtain ⟨x, hx⟩ := h
  have hkey : key.toList =
      (l.root.toList ++ "/assignments/".toList) ++ (item.toList ++ '/' :: x) := by
    rw [← hx]
    simp
  rw [hkey, List.prefix_append_right_inj, prefix_segment_iff hi'.2 hi.2] at h'
  exact String.toList_inj.1 h'.1.symm

theorem startsWith_memberKey (l : Layout) (m : MemberId) :
    (l.memberKey m).startsWith l.membersScope := by
  rw [String.startsWith_string_iff]
  simp [memberKey, membersScope]

theorem startsWith_itemKey (l : Layout) (item : String) :
    (l.itemKey item).startsWith l.itemsScope := by
  rw [String.startsWith_string_iff]
  simp [itemKey, itemsScope]

theorem not_startsWith_itemScope_of_membersScope {l : Layout} {key : String} (item : String)
    (h : key.startsWith l.membersScope) : ¬ key.startsWith (l.itemScope item) := by
  rw [String.startsWith_string_iff] at h ⊢
  obtain ⟨x, hx⟩ := h
  rw [toList_itemScope, ← hx, membersScope, String.toList_append, List.append_assoc,
    List.append_assoc, List.prefix_append_right_inj]
  simp

theorem not_startsWith_itemScope_of_itemsScope {l : Layout} {key : String} (item : String)
    (h : key.startsWith l.itemsScope) : ¬ key.startsWith (l.itemScope item) := by
  rw [String.startsWith_string_iff] at h ⊢
  obtain ⟨x, hx⟩ := h
  rw [toList_itemScope, ← hx, itemsScope, String.toList_append, List.append_assoc,
    List.append_assoc, List.prefix_append_right_inj]
  simp

theorem not_memberKey_startsWith_itemScope (l : Layout) (m : MemberId) (item : String) :
    ¬ (l.memberKey m).startsWith (l.itemScope item) :=
  not_startsWith_itemScope_of_membersScope item (l.startsWith_memberKey m)

theorem not_itemKey_startsWith_itemScope (l : Layout) (item item' : String) :
    ¬ (l.itemKey item').startsWith (l.itemScope item) :=
  not_startsWith_itemScope_of_itemsScope item (l.startsWith_itemKey item')

theorem startsWith_assignmentsScope_of_itemScope {l : Layout} {key item : String}
    (h : key.startsWith (l.itemScope item) = true) : key.startsWith l.assignmentsScope = true := by
  rw [String.startsWith_string_iff] at h ⊢
  refine List.IsPrefix.trans ?_ h
  simp [itemScope, assignmentsScope]

theorem startsWith_scope_of_itemScope {l : Layout} {key item : String}
    (h : key.startsWith (l.itemScope item) = true) : key.startsWith l.scope = true := by
  rw [String.startsWith_string_iff] at h ⊢
  refine List.IsPrefix.trans ?_ h
  simp [itemScope, scope]

theorem startsWith_assignmentsScope_of_parse {l : Layout} {key item : String} {m : MemberId} {n : Nat}
    (h : l.parse key = .ok (.assignment item m n)) : key.startsWith l.assignmentsScope := by
  obtain ⟨slot, hk, -⟩ := toList_of_parse_assignment h
  rw [String.startsWith_string_iff, hk]
  simp [assignmentsScope]

theorem startsWith_scope_of_parse {l : Layout} {key : String} {identity : Identity}
    (h : l.parse key = .ok identity) : key.startsWith l.scope := by
  obtain ⟨segments, rfl, -⟩ := parse_eq_ok_iff.1 h
  rw [String.startsWith_string_iff, toList_spell]
  exact List.prefix_append _ _

end Layout

end Allotment
