import Allotment.Proofs.Holdings
import Allotment.Proofs.Snapshot
import Mathlib.Data.List.Nodup

/-!
# Rosters of faithful snapshots

The roster of a faithful snapshot has one seat for each member (`mem_seats_iff`) and one group for
each item that exists or has an assignment (`mem_itemIds_iff`, `nodup_itemIds`).  The replicas of a
group are the assignments of its item, in slot order (`mem_replicas_group_iff`, `replicasOf_group`).
-/

namespace Allotment

/-! ### Runs of equal elements -/

theorem eraseReps_cons_cons (a b : String) (l : List String) :
    (a :: b :: l).eraseReps = if a = b then (a :: l).eraseReps else a :: (b :: l).eraseReps := by
  have hloop : ∀ (l : List String) (a : String) (acc : List String),
      List.eraseRepsBy.loop (· == ·) a l acc =
        acc.reverse ++ List.eraseRepsBy.loop (· == ·) a l [] := by
    intro l
    induction l with
    | nil => simp [List.eraseRepsBy.loop]
    | cons b l ih =>
      intro a acc
      simp only [List.eraseRepsBy.loop]
      split
      · exact ih a acc
      · rw [ih b (a :: acc), ih b [a]]
        simp
  show List.eraseRepsBy.loop (· == ·) a (b :: l) [] = _
  simp only [List.eraseRepsBy.loop]
  by_cases h : a = b
  · simp only [h, beq_self_eq_true, ↓reduceIte]
    rfl
  · simp only [beq_false_of_ne h, h, ↓reduceIte]
    rw [hloop l b [a]]
    rfl

/-- Without its runs of equal elements, an ascending list ascends strictly and has the same
elements. -/
theorem eraseReps_of_ascending {l : List String} (h : l.Pairwise (· ≤ ·)) :
    l.eraseReps.Pairwise (· < ·) ∧ ∀ x, x ∈ l.eraseReps ↔ x ∈ l := by
  cases l with
  | nil => exact ⟨List.Pairwise.nil, fun x => Iff.rfl⟩
  | cons a l =>
    induction l generalizing a with
    | nil =>
      have hone : [a].eraseReps = [a] := rfl
      rw [hone]
      exact ⟨List.pairwise_singleton _ _, fun x => Iff.rfl⟩
    | cons b l ih =>
      obtain ⟨ha, hbl⟩ := List.pairwise_cons.1 h
      obtain ⟨hb, hl⟩ := List.pairwise_cons.1 hbl
      rw [eraseReps_cons_cons]
      split
      next hab =>
        subst hab
        obtain ⟨hlt, hmem⟩ := ih a (List.pairwise_cons.2 ⟨hb, hl⟩)
        refine ⟨hlt, fun x => ?_⟩
        rw [hmem]
        simp
      next hab =>
        obtain ⟨hlt, hmem⟩ := ih b hbl
        refine ⟨List.pairwise_cons.2 ⟨fun x hx => ?_, hlt⟩, fun x => ?_⟩
        · have hle : a ≤ x := ha x ((hmem x).1 hx)
          have hbx : b ≤ x := by
            rcases List.mem_cons.1 ((hmem x).1 hx) with rfl | hx
            · exact String.le_refl _
            · exact hb x hx
          have hlt : a < b := by
            refine String.not_le.1 fun hba => hab (String.le_antisymm (ha b List.mem_cons_self) hba)
          refine String.not_le.1 fun hxa => ?_
          exact absurd hlt (String.not_lt.2 (String.le_trans hbx hxa))
        · rw [List.mem_cons, hmem, List.mem_cons, List.mem_cons, List.mem_cons]

theorem pairwise_mergeSort_le (l : List String) : (l.mergeSort (· ≤ ·)).Pairwise (· ≤ ·) := by
  have htrans : ∀ a b c : String, decide (a ≤ b) = true → decide (b ≤ c) = true →
      decide (a ≤ c) = true := fun a b c hab hbc => by
    simpa using String.le_trans (by simpa using hab) (by simpa using hbc)
  have htotal : ∀ a b : String, (decide (a ≤ b) || decide (b ≤ a)) = true := fun a b => by
    simpa using String.le_total a b
  exact (List.pairwise_mergeSort htrans htotal l).imp fun h => by simpa using h

/-! ### Replicas of one item -/

namespace Replica

theorem le_iff {a b : Replica} : a.le b = true ↔ a.slot < b.slot ∨ a.slot = b.slot ∧ a.key ≤ b.key := by
  simp [le]

theorem slot_le_of_le {a b : Replica} (h : a.le b = true) : a.slot ≤ b.slot := by
  rcases le_iff.1 h with h | ⟨h, -⟩ <;> omega

theorem le_trans (a b c : Replica) (hab : a.le b = true) (hbc : b.le c = true) : a.le c = true := by
  rw [le_iff] at hab hbc ⊢
  rcases hab with hab | ⟨hab, hk⟩
  · have := slot_le_of_le (le_iff.2 hbc)
    left
    omega
  · rcases hbc with hbc | ⟨hbc, hk'⟩
    · left
      omega
    · exact .inr ⟨hab.trans hbc, String.le_trans hk hk'⟩

theorem le_total (a b : Replica) : (a.le b || b.le a) = true := by
  rw [Bool.or_eq_true, le_iff, le_iff]
  rcases Nat.lt_trichotomy a.slot b.slot with h | h | h
  · exact .inl (.inl h)
  · rcases String.le_total a.key b.key with hk | hk
    · exact .inl (.inr ⟨h, hk⟩)
    · exact .inr (.inr ⟨h.symm, hk⟩)
  · exact .inr (.inl h)

end Replica

/-- The replicas of one item, in slot order, under distinct keys that tell their holders and slots. -/
structure ReplicasOf (l : Layout) (item : String) (rs : List Replica) : Prop where
  segment : IsSegment item
  nodup : (rs.map (·.key)).Nodup
  item_eq : ∀ r ∈ rs, r.assignment.item = item
  parse : ∀ r ∈ rs, l.parse r.key = .ok (.assignment item r.holder r.slot)
  ordered : rs.Pairwise fun a b => a.slot ≤ b.slot

namespace ReplicasOf

variable {l : Layout} {item : String} {rs : List Replica}

theorem nodup_self (h : ReplicasOf l item rs) : rs.Nodup :=
  (List.pairwise_map.1 h.nodup).imp fun hne he => hne (congrArg Replica.key he)

theorem named (h : ReplicasOf l item rs) {r : Replica} (hr : r ∈ rs) : r.IsNamed l item :=
  Replica.IsNamed.of_parse (h.item_eq r hr) (h.parse r hr)

theorem slot_lt (h : ReplicasOf l item rs) {r : Replica} (hr : r ∈ rs) :
    r.slot < Layout.slotLimit := by
  obtain ⟨slot, -, -, -, -, hn⟩ := Layout.parse_eq_assignment_iff.1 (h.parse r hr)
  exact Numeral.lt_of_read hn

end ReplicasOf

/-! ### Rosters -/

namespace Roster

variable {s : Snapshot}

theorem mem_seats_iff {t : Seat} :
    t ∈ (ofSnapshot s).seats ↔
      ∃ e ∈ s.members, t = seat (s.assignments.map (·.value))
        ((s.assignments.map (·.value)).filter fun a => (s.item? a.item).isSome) e := by
  simp only [ofSnapshot, List.mem_map, eq_comm]

/-- If every item with assignments exists, the live load of a member is all that it holds. -/
theorem seat_mem_seats (hlive : ∀ a ∈ s.assignments, (s.item? a.value.item).isSome = true)
    {e : Entry Member} (he : e ∈ s.members) :
    seat (s.assignments.map (·.value)) (s.assignments.map (·.value)) e ∈ (ofSnapshot s).seats := by
  have hall : (s.assignments.map (·.value)).filter (fun a => (s.item? a.item).isSome) =
      s.assignments.map (·.value) := by
    rw [List.filter_eq_self, List.forall_mem_map]
    exact hlive
  exact mem_seats_iff.2 ⟨e, he, by rw [hall]⟩

theorem ids_seats (s : Snapshot) :
    (ofSnapshot s).seats.map (·.id) = s.members.map (·.value.id) := by
  simp only [ofSnapshot, List.map_map]
  rfl

theorem nodup_ids_seats (hs : s.IsFaithful) : ((ofSnapshot s).seats.map (·.id)).Nodup := by
  rw [ids_seats]
  refine List.Nodup.map_on (fun e he e' he' h => Snapshot.eq_of_mem_members hs he he' h) ?_
  exact (Snapshot.nodup_view s _ _).of_map _

theorem seat?_eq_some_iff (hs : s.IsFaithful) {m : MemberId} {t : Seat} :
    (ofSnapshot s).seat? m = some t ↔ t ∈ (ofSnapshot s).seats ∧ t.id = m := by
  unfold seat?
  constructor
  · intro h
    exact ⟨List.mem_of_find?_eq_some h, by simpa using List.find?_some h⟩
  · rintro ⟨ht, rfl⟩
    cases hf : (ofSnapshot s).seats.find? (·.id == t.id) with
    | none =>
      have hne := List.find?_eq_none.1 hf t ht
      exact absurd (beq_self_eq_true t.id) hne
    | some u =>
      have hu : u.id = t.id := by simpa using List.find?_some hf
      rw [List.inj_on_of_nodup_map (nodup_ids_seats hs) (List.mem_of_find?_eq_some hf) ht hu]

theorem mem_itemIds_iff {id : String} :
    id ∈ itemIds s ↔ (∃ e ∈ s.items, e.value.id = id) ∨ ∃ e ∈ s.assignments, e.value.item = id := by
  unfold itemIds
  rw [(eraseReps_of_ascending (pairwise_mergeSort_le _)).2, List.mem_mergeSort,
    List.mem_append, List.mem_map, List.mem_map]

theorem itemIds_ascending (s : Snapshot) : (itemIds s).Pairwise (· < ·) := by
  exact (eraseReps_of_ascending (pairwise_mergeSort_le _)).1

theorem nodup_itemIds (s : Snapshot) : (itemIds s).Nodup := by
  refine (itemIds_ascending s).imp ?_
  rintro a _ h rfl
  exact String.lt_irrefl a h

theorem isSegment_of_mem_itemIds (hs : s.IsFaithful) {id : String} (h : id ∈ itemIds s) :
    IsSegment id := by
  rcases mem_itemIds_iff.1 h with ⟨e, he, rfl⟩ | ⟨e, he, rfl⟩
  · exact (Snapshot.parse_of_mem_items hs he).2
  · obtain ⟨-, -, hi, -⟩ := Layout.parse_eq_assignment_iff.1 (Snapshot.parse_of_mem_assignments hs he)
    exact hi

theorem mem_groups_iff {g : Group} :
    g ∈ (ofSnapshot s).groups ↔
      g.id ∈ itemIds s ∧ g = group s (s.assignments.map (replica s)) g.id := by
  simp only [ofSnapshot, List.mem_map]
  constructor
  · rintro ⟨id, hid, rfl⟩
    exact ⟨hid, rfl⟩
  · rintro ⟨hid, he⟩
    exact ⟨g.id, hid, he.symm⟩

theorem mem_replicas_group_iff {id : String} {r : Replica} :
    r ∈ (group s (s.assignments.map (replica s)) id).replicas ↔
      ∃ e ∈ s.assignments, replica s e = r ∧ e.value.item = id := by
  simp only [group, List.mem_mergeSort, List.mem_filter, List.mem_map, beq_iff_eq]
  constructor
  · rintro ⟨⟨e, he, rfl⟩, hi⟩
    exact ⟨e, he, rfl, hi⟩
  · rintro ⟨e, he, rfl, hi⟩
    exact ⟨⟨e, he, rfl⟩, hi⟩

theorem replicasOf_group (hs : s.IsFaithful) {id : String} (hid : id ∈ itemIds s) :
    ReplicasOf s.layout id (group s (s.assignments.map (replica s)) id).replicas where
  segment := isSegment_of_mem_itemIds hs hid
  nodup := by
    have hperm : ((group s (s.assignments.map (replica s)) id).replicas.map (·.key)).Perm
        (((s.assignments.map (replica s)).filter (·.assignment.item == id)).map (·.key)) :=
      (List.mergeSort_perm _ _).map _
    rw [hperm.nodup_iff]
    have hkeys : ((s.assignments.map (replica s)).map (·.key)).Nodup := by
      rw [List.map_map]
      exact Snapshot.nodup_view _ _ _
    exact hkeys.sublist (List.filter_sublist.map _)
  item_eq := fun r hr => by
    obtain ⟨e, -, rfl, hi⟩ := mem_replicas_group_iff.1 hr
    exact hi
  parse := fun r hr => by
    obtain ⟨e, he, rfl, rfl⟩ := mem_replicas_group_iff.1 hr
    exact Snapshot.parse_of_mem_assignments hs he
  ordered := by
    have hsorted := List.pairwise_mergeSort Replica.le_trans Replica.le_total
      ((s.assignments.map (replica s)).filter (·.assignment.item == id))
    exact hsorted.imp Replica.slot_le_of_le

theorem orphan_of_mem_group {id : String} {r : Replica}
    (h : r ∈ (group s (s.assignments.map (replica s)) id).replicas) :
    r.orphan = (s.member? r.holder).isNone := by
  obtain ⟨e, -, rfl, -⟩ := mem_replicas_group_iff.1 h
  rfl

/-- What a snapshot has in the scope of an item is one of its assignments. -/
theorem exists_assignment_of_startsWith (hs : s.IsFaithful) {id : String} (hid : IsSegment id) {k : String}
    {v : Stamped Resource} (hv : s.entries.get? k = some v)
    (hk : k.startsWith (s.layout.itemScope id) = true) :
    ∃ e ∈ s.assignments, e.key = k ∧ e.value.item = id := by
  have hp := hs k v hv
  obtain ⟨res, created, modified⟩ := v
  cases res with
  | member m =>
    rw [(Layout.parse_eq_member_iff.1 hp).1] at hk
    exact absurd hk (Layout.not_memberKey_startsWith_itemScope _ _ _)
  | item i =>
    rw [(Layout.parse_eq_item_iff.1 hp).1] at hk
    exact absurd hk (Layout.not_itemKey_startsWith_itemScope _ _ _)
  | assignment a =>
    have hentry : (⟨⟨a, created, modified⟩, k⟩ : Entry Assignment) ∈ s.assignments :=
      (Snapshot.mem_assignments_iff hs).2 hv
    exact ⟨_, hentry, rfl, (Layout.startsWith_itemScope_iff hp hid).1 hk⟩

/-- Contents show the replicas of their snapshot. -/
theorem shows_group {l : Layout} {revision : Int} {c : Contents}
    (h : Snapshot.ofEntries l revision (c.entriesUnder l.scope) = .ok s) {id : String}
    (hid : id ∈ itemIds s) :
    c.Shows l id (group s (s.assignments.map (replica s)) id).replicas := by
  have hs := Snapshot.faithful_of_ofEntries h
  obtain rfl := (Snapshot.ofEntries_eq_ok h).1
  have hrs := replicasOf_group hs hid
  refine ⟨hrs.nodup, fun r hr => hrs.named hr, fun r hr => ?_, fun k hk hv => ?_⟩
  · obtain ⟨e, he, rfl, -⟩ := mem_replicas_group_iff.1 hr
    obtain ⟨raw, hraw, -, hd⟩ := Snapshot.exists_raw_of_get? h ((Snapshot.mem_assignments_iff hs).1 he)
    show c.value? e.key = some (Assignment.encode e.value.consistent)
    unfold Contents.value?
    rw [hraw, Option.map_some]
    exact congrArg some (Resource.value_of_decode_assignment hd rfl)
  · rw [Contents.isSome_value?, Option.isSome_iff_exists] at hv
    obtain ⟨raw, hraw⟩ := hv
    obtain ⟨v, hget, -⟩ := Snapshot.exists_get?_of_raw h (Layout.startsWith_scope_of_itemScope hk) hraw
    obtain ⟨e, he, rfl, hitem⟩ := exists_assignment_of_startsWith hs hrs.segment hget hk
    exact List.mem_map.2 ⟨replica s e, mem_replicas_group_iff.2 ⟨e, he, rfl, hitem⟩, rfl⟩

end Roster

end Allotment
