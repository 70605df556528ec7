import Allotment.Check
import Allotment.Proofs.Plan.Placement

/-!
# Snapshots without anything to repair

A snapshot is intact if every item with assignments exists and none of its replicas is broken
(`Snapshot.IsIntact`).  Then nobody holds more assignments than there are items (`IsIntact.load_le`), and a
member without a place to spare holds every item (`IsIntact.exists_held_of_full`).  So if everybody could
hold all items (`Snapshot.IsAmple`), a member that is not draining holds an item or has a place for it
(`IsIntact.exists_replica_or_seat`), and sheds nothing (`IsIntact.not_mem_shedding`).
-/

namespace Allotment

theorem Placement.liveOf_of_brokenOf_eq_nil {seen : List MemberId} {rs : List Replica}
    (h : brokenOf seen rs = []) : liveOf seen rs = rs := by
  induction rs generalizing seen with
  | nil => rfl
  | cons r rs ih =>
    simp only [brokenOf, liveOf] at h ⊢
    split at h
    next => exact absurd h (List.cons_ne_nil _ _)
    next hr => rw [if_neg hr, ih h]

theorem Roster.assignments_group_perm (s : Snapshot) (id : String) :
    ((Roster.group s (s.assignments.map (Roster.replica s)) id).replicas.map (·.assignment)).Perm
      (s.held id) := by
  refine ((List.mergeSort_perm _ _).map _).trans ?_
  unfold Snapshot.held
  rw [List.filter_map, List.filter_map, List.map_map]
  exact List.Perm.refl _

/-- The candidates of a group are the replicas that the member holds of an existing item. -/
theorem Candidate.mem_ofGroup_iff {m : MemberId} {g : Group} {c : Candidate} :
    c ∈ Candidate.ofGroup m g ↔ ∃ item, g.wanted = some item ∧ c.replica ∈ g.replicas ∧
      c.replica.isHeldBy m = true ∧
        c.overReplicated = decide (item.value.replication < g.replicas.length) := by
  obtain ⟨beyond, r⟩ := c
  unfold ofGroup
  cases g.wanted with
  | none => simp
  | some item =>
    simp only [List.mem_map, List.mem_filter, Candidate.mk.injEq, Option.some.injEq, exists_eq_left']
    constructor
    · rintro ⟨q, ⟨hq, hheld⟩, rfl, rfl⟩
      exact ⟨hq, hheld, rfl⟩
    · rintro ⟨hr, hheld, rfl⟩
      exact ⟨r, ⟨hr, hheld⟩, rfl, rfl⟩

theorem Room.exists_of_mem_holdersOf {rs : List Replica} {m : MemberId}
    (h : m ∈ Room.holdersOf rs) : ∃ r ∈ rs, r.holder = m := by
  obtain ⟨r, hr, hm⟩ := List.mem_map.1 h
  exact ⟨r, (List.mem_filter.1 hr).1, hm⟩

namespace Snapshot

/-- A decoded snapshot in which every item with assignments exists, on distinct members that exist. -/
structure IsIntact (s : Snapshot) : Prop where
  faithful : s.IsFaithful
  wanted : ∀ g ∈ (Roster.ofSnapshot s).groups, ∃ item, g.wanted = some item
  broken_eq_nil : ∀ g ∈ (Roster.ofSnapshot s).groups, Placement.brokenOf [] g.replicas = []

/-- Every member that is not draining could hold all items. -/
def IsAmple (s : Snapshot) : Prop :=
  ∀ e ∈ s.members, e.value.isDraining = false → s.items.length ≤ e.value.limit

/-- Every member that is not draining could hold all items, and there are enough such members for each
item. -/
structure IsRoomy (s : Snapshot) : Prop where
  limit : s.IsAmple
  replication : ∀ i ∈ s.items,
    i.value.replication ≤ (s.members.filter fun e => !e.value.isDraining).length

namespace IsIntact

variable {s : Snapshot}

/-! ### Loads -/

theorem liveOf_eq (h : s.IsIntact) {g : Group} (hg : g ∈ (Roster.ofSnapshot s).groups) :
    Placement.liveOf [] g.replicas = g.replicas :=
  Placement.liveOf_of_brokenOf_eq_nil (h.broken_eq_nil g hg)

theorem orphan_eq_false (h : s.IsIntact) {g : Group} (hg : g ∈ (Roster.ofSnapshot s).groups)
    {r : Replica} (hr : r ∈ g.replicas) : r.orphan = false := by
  rw [← h.liveOf_eq hg] at hr
  exact (Placement.holder_of_mem_liveOf hr).1

theorem nodup_holders (h : s.IsIntact) {g : Group} (hg : g ∈ (Roster.ofSnapshot s).groups) :
    (g.replicas.map (·.holder)).Nodup := by
  rw [← h.liveOf_eq hg]
  exact Placement.nodup_holders_liveOf [] g.replicas

/-- Every assignment is a replica of a group. -/
theorem exists_group {a : Entry Assignment} (ha : a ∈ s.assignments) :
    ∃ g ∈ (Roster.ofSnapshot s).groups, g.id = a.value.item ∧ Roster.replica s a ∈ g.replicas := by
  have hid : a.value.item ∈ Roster.itemIds s := Roster.mem_itemIds_iff.2 (.inr ⟨a, ha, rfl⟩)
  refine ⟨Roster.group s (s.assignments.map (Roster.replica s)) a.value.item,
    Roster.mem_groups_iff.2 ⟨hid, rfl⟩, rfl, ?_⟩
  exact Roster.mem_replicas_group_iff.2 ⟨a, ha, rfl, rfl⟩

theorem exists_item (h : s.IsIntact) {a : Entry Assignment} (ha : a ∈ s.assignments) :
    ∃ i, s.item? a.value.item = some i := by
  obtain ⟨g, hg, hid, -⟩ := exists_group ha
  obtain ⟨item, hw⟩ := h.wanted g hg
  rw [(Roster.mem_groups_iff.1 hg).2] at hw
  exact ⟨item, hid ▸ hw⟩

/-- Nobody holds an item twice. -/
theorem nodup_items_of_holder (h : s.IsIntact) (m : MemberId) :
    ((s.assignments.filter (·.value.holder == m)).map (·.value.item)).Nodup := by
  have hnodup : s.assignments.Nodup := (Snapshot.nodup_view s _ _).of_map _
  refine List.Nodup.map_on (fun a ha a' ha' he => ?_) (hnodup.filter _)
  obtain ⟨ha, hm⟩ := List.mem_filter.1 ha
  obtain ⟨ha', hm'⟩ := List.mem_filter.1 ha'
  obtain ⟨g, hg, hid, hr⟩ := exists_group ha
  obtain ⟨g', hg', hid', hr'⟩ := exists_group ha'
  have hgg : g' = g := by
    rw [(Roster.mem_groups_iff.1 hg).2, (Roster.mem_groups_iff.1 hg').2, hid, hid', he]
  rw [hgg] at hr'
  have hholder : (Roster.replica s a).holder = (Roster.replica s a').holder :=
    (eq_of_beq hm).trans (eq_of_beq hm').symm
  have heq := List.inj_on_of_nodup_map (h.nodup_holders hg) hr hr' hholder
  have hkey : a.key = a'.key := congrArg Replica.key heq
  exact List.inj_on_of_nodup_map (Snapshot.nodup_view s _ _) ha ha' hkey

theorem items_of_holder_subperm (h : s.IsIntact) (m : MemberId) :
    ((s.assignments.filter (·.value.holder == m)).map (·.value.item)).Subperm
      (s.items.map (·.value.id)) := by
  refine (h.nodup_items_of_holder m).subperm fun id hid => ?_
  obtain ⟨a, ha, rfl⟩ := List.mem_map.1 hid
  obtain ⟨i, hi⟩ := h.exists_item (List.mem_filter.1 ha).1
  obtain ⟨hmem, he⟩ := (Snapshot.item?_eq_some_iff h.faithful).1 hi
  exact List.mem_map.2 ⟨i, hmem, he⟩

theorem load_eq_length (s : Snapshot) (m : MemberId) :
    (s.assignments.map (·.value)).countP (·.holder == m) =
      ((s.assignments.filter (·.value.holder == m)).map (·.value.item)).length := by
  rw [List.length_map, List.countP_map, List.countP_eq_length_filter]
  rfl

/-- Nobody holds more assignments than there are items. -/
theorem load_le (h : s.IsIntact) (m : MemberId) :
    (s.assignments.map (·.value)).countP (·.holder == m) ≤ s.items.length := by
  rw [load_eq_length, ← List.length_map (f := fun i : Entry Item => i.value.id)]
  exact (h.items_of_holder_subperm m).length_le

/-- Whoever holds as many assignments as there are items holds every item. -/
theorem exists_held_of_full (h : s.IsIntact) {m : MemberId}
    (hfull : s.items.length ≤ (s.assignments.map (·.value)).countP (·.holder == m)) {i : Entry Item}
    (hi : i ∈ s.items) : ∃ a ∈ s.assignments, a.value.item = i.value.id ∧ a.value.holder = m := by
  rw [load_eq_length, ← List.length_map (f := fun i : Entry Item => i.value.id)] at hfull
  have hperm := (h.items_of_holder_subperm m).perm_of_length_le hfull
  obtain ⟨a, ha, he⟩ := List.mem_map.1 (hperm.mem_iff.2 (List.mem_map_of_mem hi))
  obtain ⟨ha, hm⟩ := List.mem_filter.1 ha
  exact ⟨a, ha, he, eq_of_beq hm⟩

/-- A member that is not draining holds the item, or it has a place to spare for it. -/
theorem exists_replica_or_seat (h : s.IsIntact) (hample : s.IsAmple) {g : Group}
    (hg : g ∈ (Roster.ofSnapshot s).groups) {item : Entry Item} (hw : g.wanted = some item)
    {e : Entry Member} (he : e ∈ s.members) (hopen : e.value.isDraining = false) :
    (∃ r ∈ g.replicas, r.holder = e.value.id) ∨
      ∃ seat ∈ (Roster.ofSnapshot s).seats, seat.id = e.value.id ∧ 0 < seat.spare ∧
        seat.id ∉ Room.holdersOf g.replicas := by
  by_cases hfull : e.value.limit ≤ (s.assignments.map (·.value)).countP (·.holder == e.value.id)
  · left
    obtain ⟨hitem, hid⟩ := Roster.id_of_wanted h.faithful hg hw
    obtain ⟨a, ha, hai, hholder⟩ := h.exists_held_of_full
      (Nat.le_trans (hample e he hopen) hfull) hitem
    refine ⟨Roster.replica s a, ?_, hholder⟩
    rw [(Roster.mem_groups_iff.1 hg).2]
    exact Roster.mem_replicas_group_iff.2 ⟨a, ha, rfl, hai.trans hid⟩
  · by_cases hholds : e.value.id ∈ Room.holdersOf g.replicas
    · exact .inl (Room.exists_of_mem_holdersOf hholds)
    · refine .inr ⟨_, Roster.mem_seats_iff.2 ⟨e, he, rfl⟩, rfl, ?_, hholds⟩
      show 0 < e.value.limit - (s.assignments.map (·.value)).countP (·.holder == e.value.id)
      omega

/-! ### Shedding -/

theorem exists_of_mem_shedding {k : String} (hk : k ∈ (Roster.ofSnapshot s).shedding) :
    ∃ seat ∈ (Roster.ofSnapshot s).seats, seat.limit < seat.liveLoad ∧
      ∃ g ∈ (Roster.ofSnapshot s).groups, ∃ r ∈ g.replicas, r.key = k ∧ r.holder = seat.id := by
  obtain ⟨r, hr, rfl⟩ := List.mem_map.1 hk
  obtain ⟨seat, hseat, hr⟩ := List.mem_flatMap.1 hr
  obtain ⟨c, hc, rfl⟩ := List.mem_map.1 hr
  have hover : seat.limit < seat.liveLoad := by
    refine Decidable.byContradiction fun hle => ?_
    rw [Nat.sub_eq_zero_of_le (Nat.not_lt.1 hle), List.take_zero] at hc
    exact nomatch hc
  obtain ⟨g, hg, hcand⟩ := List.mem_flatMap.1 (List.mem_mergeSort.1 (List.mem_of_mem_take hc))
  obtain ⟨-, -, hmem, hheld, -⟩ := Candidate.mem_ofGroup_iff.1 hcand
  simp only [Replica.isHeldBy, Bool.and_eq_true, beq_iff_eq] at hheld
  exact ⟨seat, hseat, hover, g, hg, c.replica, hmem, rfl, hheld.2⟩

/-- A member with a limit sheds nothing, since it holds no more than there are items. -/
theorem not_mem_shedding (h : s.IsIntact) (hample : s.IsAmple) {g : Group}
    (hg : g ∈ (Roster.ofSnapshot s).groups) {r : Replica} (hr : r ∈ g.replicas) {e : Entry Member}
    (he : e ∈ s.members) (hopen : e.value.isDraining = false) (hholder : r.holder = e.value.id) :
    r.key ∉ (Roster.ofSnapshot s).shedding := by
  intro hk
  obtain ⟨seat, hseat, hover, g', hg', r', hr', hkey, hid⟩ := exists_of_mem_shedding hk
  have hparse : ∀ {g : Group} {r : Replica}, g ∈ (Roster.ofSnapshot s).groups → r ∈ g.replicas →
      s.layout.parse r.key = .ok (.assignment g.id r.holder r.slot) := by
    intro g r hg hr
    obtain ⟨hid, he⟩ := Roster.mem_groups_iff.1 hg
    rw [he] at hr
    exact (Roster.replicasOf_group h.faithful hid).parse r hr
  have hp := (hparse hg hr).symm.trans (hkey ▸ hparse hg' hr')
  have hsame : r.holder = r'.holder := by
    have hinj := Except.ok.inj hp
    exact (Identity.assignment.inj hinj).2.1
  obtain ⟨e', he', rfl⟩ := Roster.mem_seats_iff.1 hseat
  obtain rfl : e' = e := Snapshot.eq_of_mem_members h.faithful he' he
    (hid.symm.trans (hsame.symm.trans hholder))
  have hlive : ((s.assignments.map (·.value)).filter fun a => (s.item? a.item).isSome).countP
      (·.holder == e'.value.id) ≤ (s.assignments.map (·.value)).countP (·.holder == e'.value.id) :=
    List.filter_sublist.countP_le
  have hload := h.load_le e'.value.id
  have hlimit := hample e' he hopen
  have hover' : e'.value.limit <
      ((s.assignments.map (·.value)).filter fun a => (s.item? a.item).isSome).countP
        (·.holder == e'.value.id) := hover
  omega

end IsIntact

end Snapshot

end Allotment
