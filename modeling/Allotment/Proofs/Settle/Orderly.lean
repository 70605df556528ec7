import Allotment.Proofs.Plan.Intact
import Mathlib.Data.Finset.Image

/-!
# Orderly snapshots

A snapshot is orderly if all its assignments are of items and on members that exist, no member holds an
item twice and the slots of every item are dense (`Snapshot.IsOrderly`).  If there is enough room too, then
exactly the replicas on draining members are shed (`IsOrderly.mem_shedding_iff`), and every item is placed
while each member that is not draining still has a place for it, unless it holds the item already
(`Room.Serves`, `IsOrderly.serves_of_mem_planned`).
-/

namespace Allotment

theorem Placement.brokenOf_eq_nil {seen : List MemberId} {rs : List Replica}
    (ho : ∀ r ∈ rs, r.orphan = false) (hnodup : (rs.map (·.holder)).Nodup)
    (hseen : ∀ r ∈ rs, r.holder ∉ seen) : brokenOf seen rs = [] := by
  induction rs generalizing seen with
  | nil => rfl
  | cons r rs ih =>
    obtain ⟨hr, hrs⟩ := List.forall_mem_cons.1 ho
    obtain ⟨hnot, hnodup'⟩ := List.nodup_cons.1 hnodup
    obtain ⟨hs, hss⟩ := List.forall_mem_cons.1 hseen
    rw [brokenOf, if_neg (by simp [hr, hs])]
    refine ih hrs hnodup' fun q hq => ?_
    rw [List.mem_cons, not_or]
    exact ⟨fun he => hnot (List.mem_map.2 ⟨q, hq, he⟩), hss q hq⟩

namespace Snapshot

/-- The members that are not draining. -/
def openMembers (s : Snapshot) : Finset MemberId :=
  ((s.members.filter fun e => !e.value.isDraining).map (·.value.id)).toFinset

/-- A decoded snapshot in which every assignment is of an item and on a member that exist, nobody holds an
item twice and the slots of every item are dense. -/
structure IsOrderly (s : Snapshot) : Prop where
  faithful : s.IsFaithful
  items : ∀ a ∈ s.assignments, (s.item? a.value.item).isSome = true
  holders : ∀ a ∈ s.assignments, (s.member? a.value.holder).isSome = true
  distinct : ∀ id, ((s.held id).map (·.holder)).Nodup
  dense : ∀ id, ((s.held id).map (·.slot)).Perm (List.range (s.held id).length)

variable {s : Snapshot}

theorem mem_openMembers_iff {m : MemberId} :
    m ∈ s.openMembers ↔ ∃ e ∈ s.members, e.value.isDraining = false ∧ e.value.id = m := by
  simp [openMembers, and_assoc]

theorem mem_openMembers_of_mem (hs : s.IsFaithful) {e : Entry Member} (he : e ∈ s.members) :
    e.value.id ∈ s.openMembers ↔ e.value.isDraining = false := by
  rw [mem_openMembers_iff]
  constructor
  · rintro ⟨e', he', hopen, hid⟩
    rwa [← eq_of_mem_members hs he' he hid]
  · exact fun hopen => ⟨e, he, hopen, rfl⟩

namespace IsOrderly

/-! ### Groups -/

theorem orphan_eq_false (h : s.IsOrderly) {g : Group} (hg : g ∈ (Roster.ofSnapshot s).groups)
    {r : Replica} (hr : r ∈ g.replicas) : r.orphan = false := by
  rw [(Roster.mem_groups_iff.1 hg).2] at hr
  rw [Roster.orphan_of_mem_group hr]
  obtain ⟨a, ha, rfl, -⟩ := Roster.mem_replicas_group_iff.1 hr
  exact Option.isNone_eq_false_iff.2 (h.holders a ha)

theorem group_perm {g : Group} (hg : g ∈ (Roster.ofSnapshot s).groups) :
    (g.replicas.map (·.assignment)).Perm (s.held g.id) := by
  have hperm := Roster.assignments_group_perm s g.id
  rwa [← (Roster.mem_groups_iff.1 hg).2] at hperm

theorem nodup_holders (h : s.IsOrderly) {g : Group} (hg : g ∈ (Roster.ofSnapshot s).groups) :
    (g.replicas.map (·.holder)).Nodup := by
  have hperm := (group_perm hg).map (·.holder)
  rw [List.map_map] at hperm
  exact hperm.nodup_iff.2 (h.distinct g.id)

theorem slots_perm (h : s.IsOrderly) {g : Group} (hg : g ∈ (Roster.ofSnapshot s).groups) :
    (g.replicas.map (·.slot)).Perm (List.range g.replicas.length) := by
  have hperm := (group_perm hg).map (·.slot)
  rw [List.map_map] at hperm
  have hlen := (group_perm hg).length_eq
  rw [List.length_map] at hlen
  rw [hlen]
  exact hperm.trans (h.dense g.id)

theorem exists_wanted (h : s.IsOrderly) {g : Group} (hg : g ∈ (Roster.ofSnapshot s).groups) :
    ∃ item, g.wanted = some item := by
  obtain ⟨hid, he⟩ := Roster.mem_groups_iff.1 hg
  rw [he]
  show ∃ item, s.item? g.id = some item
  rcases Roster.mem_itemIds_iff.1 hid with ⟨i, hi, hie⟩ | ⟨a, ha, hae⟩
  · exact ⟨i, (item?_eq_some_iff h.faithful).2 ⟨hi, hie⟩⟩
  · exact hae ▸ Option.isSome_iff_exists.1 (h.items a ha)

theorem intact (h : s.IsOrderly) : s.IsIntact where
  faithful := h.faithful
  wanted := fun _ hg => h.exists_wanted hg
  broken_eq_nil := fun _ hg => Placement.brokenOf_eq_nil (fun _ hr => h.orphan_eq_false hg hr)
    (h.nodup_holders hg) fun _ _ => List.not_mem_nil

theorem mem_holdersOf_iff (h : s.IsOrderly) {g : Group} (hg : g ∈ (Roster.ofSnapshot s).groups)
    {m : MemberId} : m ∈ Room.holdersOf g.replicas ↔ ∃ r ∈ g.replicas, r.holder = m := by
  refine ⟨Room.exists_of_mem_holdersOf, ?_⟩
  rintro ⟨r, hr, rfl⟩
  exact List.mem_map_of_mem (List.mem_filter.2 ⟨hr, by simp [h.orphan_eq_false hg hr]⟩)

/-- Whoever holds a replica is a member. -/
theorem exists_member (h : s.IsOrderly) {g : Group} (hg : g ∈ (Roster.ofSnapshot s).groups)
    {r : Replica} (hr : r ∈ g.replicas) : ∃ e ∈ s.members, e.value.id = r.holder := by
  rw [(Roster.mem_groups_iff.1 hg).2] at hr
  obtain ⟨a, ha, rfl, -⟩ := Roster.mem_replicas_group_iff.1 hr
  obtain ⟨e, he⟩ := Option.isSome_iff_exists.1 (h.holders a ha)
  exact ⟨e, (member?_eq_some_iff h.faithful).1 he⟩

theorem length_le_members {ms : List MemberId} (hnodup : ms.Nodup)
    (hms : ∀ m ∈ ms, ∃ e ∈ s.members, e.value.id = m) : ms.length ≤ s.members.length := by
  rw [← List.length_map (f := fun e : Entry Member => e.value.id)]
  refine (hnodup.subperm fun m hm => ?_).length_le
  obtain ⟨e, he, hid⟩ := hms m hm
  exact List.mem_map.2 ⟨e, he, hid⟩

theorem length_replicas_le (h : s.IsOrderly) {g : Group} (hg : g ∈ (Roster.ofSnapshot s).groups) :
    g.replicas.length ≤ s.members.length := by
  rw [← List.length_map (f := fun r : Replica => r.holder)]
  refine length_le_members (h.nodup_holders hg) fun m hm => ?_
  obtain ⟨r, hr, rfl⟩ := List.mem_map.1 hm
  exact h.exists_member hg hr

/-- There is another member besides the holders of an item. -/
theorem length_replicas_lt (h : s.IsOrderly) {g : Group} (hg : g ∈ (Roster.ofSnapshot s).groups)
    {m : MemberId} (hm : m ∈ s.openMembers) (hnot : m ∉ Room.holdersOf g.replicas) :
    g.replicas.length < s.members.length := by
  have hnodup : (m :: g.replicas.map (·.holder)).Nodup := by
    refine List.nodup_cons.2 ⟨fun hmem => hnot ?_, h.nodup_holders hg⟩
    obtain ⟨r, hr, he⟩ := List.mem_map.1 hmem
    exact (h.mem_holdersOf_iff hg).2 ⟨r, hr, he⟩
  have hlength : (m :: g.replicas.map (·.holder)).length ≤ s.members.length := by
    refine length_le_members hnodup (List.forall_mem_cons.2 ⟨?_, fun q hq => ?_⟩)
    · obtain ⟨e, he, -, hid⟩ := mem_openMembers_iff.1 hm
      exact ⟨e, he, hid⟩
    · obtain ⟨r, hr, rfl⟩ := List.mem_map.1 hq
      exact h.exists_member hg hr
  rwa [List.length_cons, List.length_map] at hlength

/-! ### Loads -/

/-- A member holds as many assignments as there are items that it holds. -/
theorem countP_groups_eq_load (h : s.IsOrderly) (m : MemberId) :
    (Roster.ofSnapshot s).groups.countP (fun g => decide (m ∈ Room.holdersOf g.replicas)) =
      (s.assignments.map (·.value)).countP (·.holder == m) := by
  have hids : (((Roster.ofSnapshot s).groups.filter fun g =>
      decide (m ∈ Room.holdersOf g.replicas)).map (·.id)).Nodup := by
    have hgroups : (Roster.ofSnapshot s).groups.map (·.id) = Roster.itemIds s := by
      simp only [Roster.ofSnapshot, List.map_map]
      exact List.map_id _
    exact (hgroups ▸ Roster.nodup_itemIds s).sublist (List.filter_sublist.map _)
  rw [IsIntact.load_eq_length, List.countP_eq_length_filter, ← List.length_map (f := Group.id)]
  refine List.Perm.length_eq ?_
  rw [List.perm_ext_iff_of_nodup hids (h.intact.nodup_items_of_holder m)]
  intro id
  simp only [List.mem_map, List.mem_filter, decide_eq_true_eq, beq_iff_eq]
  constructor
  · rintro ⟨g, ⟨hg, hm⟩, rfl⟩
    obtain ⟨r, hr, hholder⟩ := (h.mem_holdersOf_iff hg).1 hm
    rw [(Roster.mem_groups_iff.1 hg).2] at hr
    obtain ⟨a, ha, rfl, hi⟩ := Roster.mem_replicas_group_iff.1 hr
    exact ⟨a, ⟨ha, hholder⟩, hi⟩
  · rintro ⟨a, ⟨ha, hholder⟩, rfl⟩
    obtain ⟨g, hg, hid, hr⟩ := IsIntact.exists_group ha
    exact ⟨g, ⟨hg, (h.mem_holdersOf_iff hg).2 ⟨_, hr, hholder⟩⟩, hid⟩

theorem length_groups_le (h : s.IsOrderly) :
    (Roster.ofSnapshot s).groups.length ≤ s.items.length := by
  have hgroups : (Roster.ofSnapshot s).groups.length = (Roster.itemIds s).length := by
    simp [Roster.ofSnapshot]
  rw [hgroups, ← List.length_map (f := fun i : Entry Item => i.value.id)]
  refine ((Roster.nodup_itemIds s).subperm fun id hid => ?_).length_le
  rcases Roster.mem_itemIds_iff.1 hid with ⟨i, hi, rfl⟩ | ⟨a, ha, rfl⟩
  · exact List.mem_map_of_mem hi
  · obtain ⟨i, hi⟩ := Option.isSome_iff_exists.1 (h.items a ha)
    obtain ⟨hmem, he⟩ := (item?_eq_some_iff h.faithful).1 hi
    exact List.mem_map.2 ⟨i, hmem, he⟩

/-! ### Shedding -/

/-- A member sheds at most one replica of each item it holds. -/
theorem length_candidates_le (m : MemberId) {gs : List Group}
    (hnodup : ∀ g ∈ gs, (g.replicas.map (·.holder)).Nodup) :
    (gs.flatMap (Candidate.ofGroup m)).length ≤
      gs.countP fun g => decide (m ∈ Room.holdersOf g.replicas) := by
  induction gs with
  | nil => exact Nat.le_refl _
  | cons g gs ih =>
    obtain ⟨hg, hgs⟩ := List.forall_mem_cons.1 hnodup
    have hfilter : (Candidate.ofGroup m g).length ≤ (g.replicas.filter (·.isHeldBy m)).length := by
      unfold Candidate.ofGroup
      split
      · exact Nat.zero_le _
      · rw [List.length_map]
    have hone : (g.replicas.filter (·.isHeldBy m)).length ≤
        if m ∈ Room.holdersOf g.replicas then 1 else 0 := by
      split
      next =>
        have hcount := List.nodup_iff_count_le_one.1 hg m
        rw [List.count_eq_countP, List.countP_map] at hcount
        refine Nat.le_trans ?_ hcount
        rw [← List.countP_eq_length_filter]
        refine List.countP_mono_left fun r _ hr => ?_
        simp only [Replica.isHeldBy, Bool.and_eq_true] at hr
        exact hr.2
      next hnot =>
        rw [Nat.le_zero, List.length_eq_zero_iff, List.filter_eq_nil_iff]
        intro r hr hheld
        simp only [Replica.isHeldBy, Bool.and_eq_true, beq_iff_eq] at hheld
        exact hnot (List.mem_map.2 ⟨r, List.mem_filter.2 ⟨hr, hheld.1⟩, hheld.2⟩)
    have hrest := ih hgs
    rw [List.flatMap_cons, List.length_append, List.countP_cons]
    simp only [decide_eq_true_eq]
    omega

/-- Exactly the replicas on draining members are shed. -/
theorem mem_shedding_iff (h : s.IsOrderly) (hample : s.IsAmple) {g : Group}
    (hg : g ∈ (Roster.ofSnapshot s).groups) {r : Replica} (hr : r ∈ g.replicas) :
    r.key ∈ (Roster.ofSnapshot s).shedding ↔ r.holder ∉ s.openMembers := by
  obtain ⟨e, he, hid⟩ := h.exists_member hg hr
  rw [← hid, mem_openMembers_of_mem h.faithful he]
  constructor
  · exact fun hk hopen => h.intact.not_mem_shedding hample hg hr he hopen hid.symm hk
  · intro hdraining
    have hzero : e.value.limit = 0 := by simpa [Member.isDraining] using hdraining
    obtain ⟨item, hw⟩ := h.exists_wanted hg
    have hseat := Roster.seat_mem_seats h.items he
    have hall : ((Roster.ofSnapshot s).groups.flatMap (Candidate.ofGroup e.value.id)).length ≤
        (s.assignments.map (·.value)).countP (·.holder == e.value.id) - e.value.limit := by
      rw [hzero, Nat.sub_zero, ← h.countP_groups_eq_load]
      exact length_candidates_le _ fun g hg => h.nodup_holders hg
    refine List.mem_map_of_mem (List.mem_flatMap.2 ⟨_, hseat, ?_⟩)
    refine List.mem_map.2 ⟨⟨decide (item.value.replication < g.replicas.length), r⟩, ?_, rfl⟩
    rw [List.take_of_length_le (by rw [List.length_mergeSort]; exact hall), List.mem_mergeSort]
    refine List.mem_flatMap.2 ⟨g, hg, Candidate.mem_ofGroup_iff.2 ⟨item, hw, hr, ?_, rfl⟩⟩
    show r.isHeldBy e.value.id = true
    simp [Replica.isHeldBy, h.orphan_eq_false hg hr, hid]

end IsOrderly

end Snapshot

/-! ### Room for every item -/

namespace Room

/-- Exactly the members that are not draining have a place for an item, unless they hold it. -/
structure Serves (s : Snapshot) (g : Group) (room : Room) : Prop where
  ids : room.seats.map (·.id) = s.members.map (·.value.id)
  spare : ∀ m ∉ holdersOf g.replicas, 0 < Spread.spareOf room.seats m ↔ m ∈ s.openMembers

/-- Every member that is not draining has a place for each of some items that it does not hold. -/
structure IsReady (s : Snapshot) (gs : List Group) (room : Room) : Prop where
  ids : room.seats.map (·.id) = s.members.map (·.value.id)
  spare : ∀ m ∈ s.openMembers, gs.countP (fun g => decide (m ∉ holdersOf g.replicas)) ≤
    Spread.spareOf room.seats m
  draining : ∀ m ∉ s.openMembers, Spread.spareOf room.seats m = 0

variable {s : Snapshot} {g : Group} {gs : List Group} {room : Room} {shedding : List String}

theorem IsReady.serves (h : room.IsReady s (g :: gs)) : room.Serves s g where
  ids := h.ids
  spare := fun m hm => by
    by_cases hopen : m ∈ s.openMembers
    · have hspare := h.spare m hopen
      rw [List.countP_cons_of_pos (by simpa using hm)] at hspare
      exact ⟨fun _ => hopen, fun _ => by omega⟩
    · have hnone := h.draining m hopen
      exact ⟨fun hpos => by omega, fun hm => absurd hm hopen⟩

theorem IsReady.nodup_ids (h : room.IsReady s gs) (hs : s.IsFaithful) : (room.seats.map (·.id)).Nodup := by
  rw [h.ids, ← Roster.ids_seats]
  exact Roster.nodup_ids_seats hs

/-- Placing an item leaves the places for the others. -/
theorem IsReady.place (hs : s.IsFaithful) (h : room.IsReady s (g :: gs)) (wanted : Nat) :
    (room.place shedding wanted g.replicas).2.IsReady s gs where
  ids := (ids_place _ _ _ _).trans h.ids
  spare := fun m hm => by
    have hids := h.nodup_ids hs
    have hplaced := spareOf_place shedding wanted g.replicas hids m
    have hspare := h.spare m hm
    rw [List.countP_cons] at hspare
    by_cases hreceives : m ∈ (room.place shedding wanted g.replicas).1.receivers
    · have hnot : m ∉ holdersOf g.replicas := ((Spread.receivers_spec _ _ _ hids m).1 hreceives).1
      rw [if_pos hreceives] at hplaced
      rw [if_pos (by simpa using hnot)] at hspare
      omega
    · rw [if_neg hreceives] at hplaced
      omega
  draining := fun m hm => by
    have hplaced := spareOf_place shedding wanted g.replicas (h.nodup_ids hs) m
    have hnone := h.draining m hm
    omega

/-- Every item is placed in a room that serves it. -/
theorem IsReady.exists_serves (hs : s.IsFaithful) (h : room.IsReady s gs)
    (hwanted : ∀ g ∈ gs, ∃ item, g.wanted = some item) {t : Planned}
    (ht : t ∈ placeAll shedding room gs) :
    ∃ g ∈ gs, ∃ item room', g.wanted = some item ∧ Serves s g room' ∧
      t = .placed item g.replicas (room'.place shedding item.value.replication g.replicas).1 := by
  induction gs generalizing room with
  | nil => exact nomatch ht
  | cons g gs ih =>
    obtain ⟨⟨item, hw⟩, hrest⟩ := List.forall_mem_cons.1 hwanted
    simp only [placeAll, hw] at ht
    rcases List.mem_cons.1 ht with rfl | ht
    · exact ⟨g, List.mem_cons_self, item, room, hw, h.serves, rfl⟩
    · obtain ⟨g', hg', htail⟩ := ih (h.place hs _) hrest ht
      exact ⟨g', List.mem_cons_of_mem _ hg', htail⟩

end Room

namespace Snapshot.IsOrderly

variable {s : Snapshot}

/-- At first every member that is not draining has a place for each item that it does not hold. -/
theorem isReady (h : s.IsOrderly) (hample : s.IsAmple) (zoneMoves : Nat) :
    Room.IsReady s (Roster.ofSnapshot s).groups ⟨(Roster.ofSnapshot s).seats, zoneMoves⟩ where
  ids := Roster.ids_seats s
  spare := fun m hm => by
    obtain ⟨e, he, hopen, rfl⟩ := mem_openMembers_iff.1 hm
    have hseat := Spread.spareOf_of_mem (Roster.nodup_ids_seats h.faithful)
      (Roster.mem_seats_iff.2 ⟨e, he, rfl⟩)
    have hspare : Spread.spareOf (Roster.ofSnapshot s).seats e.value.id = e.value.limit -
        (s.assignments.map (·.value)).countP (·.holder == e.value.id) := hseat
    have hload := h.countP_groups_eq_load e.value.id
    have hsplit := List.length_eq_countP_add_countP
      (fun g : Group => decide (e.value.id ∈ Room.holdersOf g.replicas))
      (l := (Roster.ofSnapshot s).groups)
    have hgroups := h.length_groups_le
    have hlimit := hample e he hopen
    simp only [decide_eq_true_eq] at hsplit
    show _ ≤ Spread.spareOf (Roster.ofSnapshot s).seats e.value.id
    omega
  draining := fun m hm => by
    refine Nat.eq_zero_of_not_pos fun hpos => hm ?_
    obtain ⟨seat, hseat, rfl, hspare⟩ := Spread.exists_seat_of_spareOf_pos hpos
    obtain ⟨e, he, rfl⟩ := Roster.mem_seats_iff.1 hseat
    refine mem_openMembers_iff.2 ⟨e, he, ?_, rfl⟩
    have hspare : 0 < e.value.limit -
        (s.assignments.map (·.value)).countP (·.holder == e.value.id) := hspare
    have hlimit : e.value.limit ≠ 0 := by omega
    simpa [Member.isDraining] using hlimit

/-- Every item is planned for in a room that serves it. -/
theorem serves_of_mem_planned (h : s.IsOrderly) (hample : s.IsAmple) {b : Bounds} {t : Planned}
    (ht : t ∈ (Roster.ofSnapshot s).planned b) :
    ∃ g ∈ (Roster.ofSnapshot s).groups, ∃ item room, g.wanted = some item ∧ Room.Serves s g room ∧
      t = .placed item g.replicas
        (room.place (Roster.ofSnapshot s).shedding item.value.replication g.replicas).1 :=
  (h.isReady hample b.repairs).exists_serves h.faithful (fun _ hg => h.exists_wanted hg) ht

end Snapshot.IsOrderly

end Allotment
