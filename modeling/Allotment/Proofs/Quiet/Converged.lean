import Allotment.Proofs.Check
import Allotment.Proofs.Quiet.Settled
import Mathlib

/-!
# Quiet snapshots have converged

In a calm snapshot with enough room every item is settled, and there is nothing else.  So the assignments
of each item are what the checks ask for (`IsCalm.item_ok`), nobody is over its limit, since whoever is
sheds something (`IsCalm.load_le_limit`), and every zone that an item misses is one without room for it,
if repairs are allowed (`IsCalm.span_le`).  Hence no state is stuck short of passing all checks
(`converged_of_quiet`).
-/

namespace Allotment

/-- A member over its limit sheds something, if there is something to shed. -/
theorem Roster.exists_mem_shedBy (seat : Seat) {gs : List Group} {g : Group} {item : Entry Item}
    {r : Replica} (hg : g ∈ gs) (hw : g.wanted = some item) (hr : r ∈ g.replicas)
    (hheld : r.isHeldBy seat.id = true) (hover : seat.limit < seat.liveLoad) :
    ∃ q, q ∈ Roster.shedBy gs seat := by
  refine List.exists_mem_of_ne_nil _ fun hnil => ?_
  unfold shedBy at hnil
  rw [List.map_eq_nil_iff, List.take_eq_nil_iff] at hnil
  rcases hnil with hzero | hnil
  · omega
  have hc : Candidate.mk (decide (item.value.replication < g.replicas.length)) r ∈
      gs.flatMap (Candidate.ofGroup seat.id) :=
    List.mem_flatMap.2 ⟨g, hg, Candidate.mem_ofGroup_iff.2 ⟨item, hw, hr, hheld, rfl⟩⟩
  exact List.not_mem_nil (hnil ▸ List.mem_mergeSort.2 hc)

namespace Snapshot

namespace IsCalm

variable {s : Snapshot} {b : Bounds}

/-- The group of an item. -/
theorem exists_group_of_item (h : s.IsFaithful) {i : Entry Item} (hi : i ∈ s.items) :
    ∃ g ∈ (Roster.ofSnapshot s).groups, g.wanted = some i ∧ g.id = i.value.id ∧
      (g.replicas.map (·.assignment)).Perm (s.held i.value.id) := by
  have hid : i.value.id ∈ Roster.itemIds s := Roster.mem_itemIds_iff.2 (.inl ⟨i, hi, rfl⟩)
  refine ⟨Roster.group s (s.assignments.map (Roster.replica s)) i.value.id,
    Roster.mem_groups_iff.2 ⟨hid, rfl⟩, ?_, rfl, Roster.assignments_group_perm s _⟩
  exact (Snapshot.item?_eq_some_iff h).2 ⟨hi, rfl⟩

/-! ### Loads -/

/-- Nobody is over its limit: whoever is sheds an assignment, but none is left to be shed. -/
theorem load_le_limit (h : s.IsCalm b) (hroomy : s.IsRoomy) {e : Entry Member}
    (he : e ∈ s.members) :
    (s.assignments.map (·.value)).countP (·.holder == e.value.id) ≤ e.value.limit := by
  cases hopen : e.value.isDraining with
  | false => exact Nat.le_trans (h.intact.load_le e.value.id) (hroomy.limit e he hopen)
  | true =>
    refine Decidable.byContradiction fun hover => ?_
    have hpos : 0 < (s.assignments.map (·.value)).countP (·.holder == e.value.id) := by omega
    obtain ⟨_, hmem, hholder⟩ := List.countP_pos_iff.1 hpos
    obtain ⟨a, ha, rfl⟩ := List.mem_map.1 hmem
    obtain ⟨g, hg, -, hr⟩ := IsIntact.exists_group ha
    obtain ⟨item, hw⟩ := h.intact.wanted _ hg
    have hseat := Roster.seat_mem_seats (fun a ha => Option.isSome_iff_exists.2 (h.intact.exists_item ha)) he
    have hheld : (Roster.replica s a).isHeldBy e.value.id = true := by
      unfold Replica.isHeldBy
      rw [h.intact.orphan_eq_false hg hr]
      exact hholder
    obtain ⟨q, hq⟩ := Roster.exists_mem_shedBy (Roster.seat _ _ e) hg hw hr hheld
      (Nat.not_le.1 hover)
    have hshed : q.key ∈ (Roster.ofSnapshot s).shedding :=
      List.mem_map_of_mem (List.mem_flatMap.2 ⟨_, hseat, hq⟩)
    obtain ⟨-, -, -, g', hg', r, hr, hkey, -⟩ := IsIntact.exists_of_mem_shedding hshed
    obtain ⟨item', hw'⟩ := h.intact.wanted _ hg'
    exact (h.settled hroomy hg' hw').unshed r hr (hkey ▸ hshed)

/-! ### Items -/

theorem slots_perm_range (h : s.IsCalm b) (hroomy : s.IsRoomy) {id : String}
    (hid : id ∈ s.heldItems) :
    ((s.held id).map (·.slot)).Perm (List.range (s.held id).length) := by
  obtain ⟨a, ha, rfl⟩ := mem_heldItems_iff.1 hid
  obtain ⟨i, hi⟩ := h.intact.exists_item ha
  obtain ⟨hmem, hie⟩ := (Snapshot.item?_eq_some_iff h.intact.faithful).1 hi
  obtain ⟨g, hg, hw, -, hperm⟩ := exists_group_of_item h.intact.faithful hmem
  rw [hie] at hperm
  have hpacked := map_slot_of_isPacked (h.settled hroomy hg hw).packed
  have hslots := hperm.map (·.slot)
  rw [List.map_map] at hslots
  rw [← hperm.length_eq, List.length_map, ← hpacked]
  exact hslots.symm

theorem item_ok (h : s.IsCalm b) (hroomy : s.IsRoomy) {i : Entry Item} (hi : i ∈ s.items) :
    Check.item s i.value = .ok () := by
  obtain ⟨g, hg, hw, -, hperm⟩ := exists_group_of_item h.intact.faithful hi
  have hsettled := h.settled hroomy hg hw
  have hmem : ∀ a ∈ s.held i.value.id, ∃ r ∈ g.replicas, r.assignment = a :=
    fun a ha => List.mem_map.1 (hperm.mem_iff.2 ha)
  refine Check.item_eq_ok_iff.2 ⟨?_, fun a ha => ?_, ?_, fun a ha => ?_⟩
  · rw [← hperm.length_eq, List.length_map]
    exact hsettled.length
  · obtain ⟨r, hr, rfl⟩ := hmem a ha
    exact hsettled.consistent r hr
  · have hholders := h.intact.nodup_holders hg
    rw [← (hperm.map _).nodup_iff, List.map_map]
    exact hholders
  · obtain ⟨r, hr, rfl⟩ := hmem a ha
    have ho := h.intact.orphan_eq_false hg hr
    rw [(Roster.mem_groups_iff.1 hg).2] at hr
    rw [Roster.orphan_of_mem_group hr] at ho
    rw [Option.isNone_eq_false_iff] at ho
    exact ho

/-- If no zone is open to an item, then it spans every zone with a member that is not draining. -/
theorem mem_zones_of_closed (h : s.IsCalm b) (hroomy : s.IsRoomy) {g : Group}
    (hg : g ∈ (Roster.ofSnapshot s).groups) {item : Entry Item} (hw : g.wanted = some item)
    (hclosed : Spread.hasOpenZone (Roster.ofSnapshot s).seats (Room.holdersOf g.replicas)
      g.replicas = false) {z : String} (hz : z ∈ s.openZones) : z ∈ g.replicas.map (·.zone) := by
  obtain ⟨e, he, hopen, rfl⟩ := mem_openZones_iff.1 hz
  rcases h.intact.exists_replica_or_seat hroomy.limit hg hw he hopen with
    ⟨r, hr, hholder⟩ | ⟨seat, hseat, hid, hpos, hnot⟩
  · exact List.mem_map.2 ⟨r, hr, congrArg MemberId.zone hholder⟩
  · refine Decidable.byContradiction fun hmissed => ?_
    refine absurd (Spread.hasOpenZone_iff.2 ⟨seat, hseat, hpos, hnot, fun r hr hzone => ?_⟩)
      (Bool.eq_false_iff.1 hclosed)
    exact hmissed (List.mem_map.2 ⟨r, hr, hid ▸ hzone⟩)

/-- An item spans as many zones as it has replicas, or every zone with a member that is not draining. -/
theorem span_le (h : s.IsCalm b) (hroomy : s.IsRoomy) (hrepairs : 0 < b.repairs) {i : Entry Item}
    (hi : i ∈ s.items) : min s.openZones.length i.value.replication ≤
      ((s.held i.value.id).map (·.holder.zone)).eraseDups.length := by
  obtain ⟨g, hg, hw, -, hperm⟩ := exists_group_of_item h.intact.faithful hi
  have hsettled := h.settled hroomy hg hw
  have hzones : (g.replicas.map (·.zone)).Perm ((s.held i.value.id).map (·.holder.zone)) := by
    have hzones := hperm.map (·.holder.zone)
    rwa [List.map_map] at hzones
  have hspan : ∀ zones : List String, zones.Nodup → (∀ z ∈ zones, z ∈ g.replicas.map (·.zone)) →
      zones.length ≤ ((s.held i.value.id).map (·.holder.zone)).eraseDups.length := by
    intro zones hnodup hsub
    refine (hnodup.subperm fun z hz => ?_).length_le
    exact List.mem_eraseDups.2 (hzones.mem_iff.1 (hsub z hz))
  rcases h.spread hroomy hrepairs hg hw with hone | hclosed
  · have hlen := hspan _ (Spread.nodup_zones hone) fun z hz => hz
    rw [List.length_map, hsettled.length] at hlen
    exact Nat.le_trans (Nat.min_le_right _ _) hlen
  · exact Nat.le_trans (Nat.min_le_left _ _) (hspan _ (nodup_eraseDups _) fun z hz =>
      h.mem_zones_of_closed hroomy hg hw hclosed hz)

/-! ### All checks -/

/-- A calm snapshot with enough room has converged. -/
theorem convergence (h : s.IsCalm b) (hroomy : s.IsRoomy) : Check.convergence s = .ok () := by
  refine Check.convergence_eq_ok_iff.2 ⟨?_, ?_, ?_⟩
  · exact (Check.capacity_eq_ok_iff h.intact.faithful).2 fun e he => h.load_le_limit hroomy he
  · exact Check.density_eq_ok_iff.2 fun id hid => h.slots_perm_range hroomy hid
  · refine Check.replication_eq_ok_iff.2 ⟨fun i hi => h.item_ok hroomy hi, fun a ha => ?_⟩
    exact Option.isSome_iff_exists.2 (h.intact.exists_item ha)

end IsCalm

/-- A quiet snapshot with enough room passes all checks. -/
theorem IsQuiet.checks {s : Snapshot} {b : Bounds} (h : s.IsQuiet b) (hroomy : s.IsRoomy) :
    Check.convergence s = .ok () ∧ Check.spread s = .ok () :=
  ⟨h.calm.convergence hroomy,
    Check.spread_eq_ok_iff.2 fun _ hi => h.calm.span_le hroomy h.repairs hi⟩

/-- No state is stuck.  Let a snapshot be decoded from any entries, and some member not be draining; let
every member that is not draining have a limit for all items, and let there be enough such members for the
replicas of each item.  If nobody proposes anything, though repairs are allowed, then all checks pass. -/
theorem converged_of_quiet {l : Layout} {revision : Int} {es : List (Entry Bytes)} {s : Snapshot}
    {b : Bounds} (hs : Snapshot.ofEntries l revision es = .ok s) (hrepairs : 1 ≤ b.repairs)
    (hstaffed : ∃ e ∈ s.members, e.value.isDraining = false)
    (hlimit : ∀ e ∈ s.members, e.value.isDraining = false → s.items.length ≤ e.value.limit)
    (hreplication : ∀ i ∈ s.items,
      i.value.replication ≤ (s.members.filter fun e => !e.value.isDraining).length)
    (hquiet : ∀ e ∈ s.members,
      ∃ p, Proposal.ofSnapshot s e.value.id b = some p ∧ p.isEmpty = true) :
    Check.convergence s = .ok () ∧ Check.spread s = .ok () :=
  IsQuiet.checks ⟨Snapshot.faithful_of_ofEntries hs, hquiet, hrepairs, hstaffed⟩
    ⟨hlimit, hreplication⟩

/-! ### A calm snapshot -/

/-- One item on two members in two zones, as it should be. -/
def calmEntries : List (Entry Bytes) :=
  [⟨⟨Assignment.encode true, 1, 1⟩, "/r/assignments/job/a/m/0"⟩,
    ⟨⟨Assignment.encode true, 1, 1⟩, "/r/assignments/job/b/m/1"⟩,
    ⟨⟨Item.encode 2, 1, 1⟩, "/r/items/job"⟩,
    ⟨⟨Member.encode 1, 1, 1⟩, "/r/members/a/m"⟩,
    ⟨⟨Member.encode 1, 1, 1⟩, "/r/members/b/m"⟩]

/-- Both replicas stay. -/
def calmPlan : Planned :=
  let rs : List Replica :=
    [⟨"/r/assignments/job/a/m/0", ⟨"job", ⟨"a", "m"⟩, 0, true⟩, false⟩,
      ⟨"/r/assignments/job/b/m/1", ⟨"job", ⟨"b", "m"⟩, 1, true⟩, false⟩]
  .placed ⟨⟨⟨"job", 2⟩, 1, 1⟩, "/r/items/job"⟩ rs ⟨rs, [], [], [], []⟩

theorem work_calmPlan {self : MemberId} (h : self = ⟨"a", "m"⟩ ∨ self = ⟨"b", "m"⟩)
    (caretaker : MemberId) :
    (Viewpoint.mk ⟨"/r"⟩ 1 self caretaker).work 32 calmPlan = Work.none := by
  have hdense : areDense [⟨"job", ⟨"a", "m"⟩, 0, true⟩, ⟨"job", ⟨"b", "m"⟩, 1, true⟩] = true := by
    unfold areDense
    exact countsUp_iff.2 (List.Perm.refl _)
  rcases h with rfl | rfl <;>
    simp [calmPlan, Viewpoint.work, Viewpoint.placedWork, Viewpoint.released, Viewpoint.own?,
      Viewpoint.repaired, Viewpoint.moves, renumbering, Packing.movers, Packing.gaps,
      Viewpoint.guarded, Replica.isHeldBy, Replica.holder, Replica.slot, hdense, List.range,
      List.range.loop]

/-- A member that has no work proposes nothing. -/
theorem exists_isEmpty_of_work {s : Snapshot} {m : MemberId} {entry : Entry Member} {seat : Seat}
    {t : Planned} (hm : s.member? m = some entry) (hseat : (Roster.ofSnapshot s).seat? m = some seat)
    (hp : (Roster.ofSnapshot s).planned Bounds.standard = [t])
    (hw : (Proposal.viewpoint s m).work 32 t = Work.none) :
    ∃ p, Proposal.ofSnapshot s m Bounds.standard = some p ∧ p.isEmpty = true := by
  have hworks : Proposal.works s (Roster.ofSnapshot s) m Bounds.standard = [Work.none] := by
    show (Proposal.viewpoint s m).works 32 ((Roster.ofSnapshot s).planned Bounds.standard) = _
    rw [hp, Viewpoint.works, Viewpoint.works, hw]
  refine ⟨_, Proposal.ofSnapshot_eq_some hm hseat _, ?_⟩
  rw [hworks]
  split
  · rfl
  · rfl

theorem converged_of_calmEntries :
    ∃ s, Snapshot.ofEntries ⟨"/r"⟩ 1 calmEntries = .ok s ∧ s.assignments.length = 2 ∧
      Check.convergence s = .ok () ∧ Check.spread s = .ok () := by
  have hfacts : (Snapshot.ofEntries ⟨"/r"⟩ 1 calmEntries).toOption.map (fun s =>
      (s.assignments.length, s.members, s.items.map (·.value), s.member? ⟨"a", "m"⟩,
        s.member? ⟨"b", "m"⟩, (Roster.ofSnapshot s).seat? ⟨"a", "m"⟩,
        (Roster.ofSnapshot s).seat? ⟨"b", "m"⟩, (Roster.ofSnapshot s).planned Bounds.standard)) =
      some (2, [⟨⟨⟨⟨"a", "m"⟩, 1⟩, 1, 1⟩, "/r/members/a/m"⟩,
          ⟨⟨⟨⟨"b", "m"⟩, 1⟩, 1, 1⟩, "/r/members/b/m"⟩], [⟨"job", 2⟩],
        some ⟨⟨⟨⟨"a", "m"⟩, 1⟩, 1, 1⟩, "/r/members/a/m"⟩,
        some ⟨⟨⟨⟨"b", "m"⟩, 1⟩, 1, 1⟩, "/r/members/b/m"⟩,
        some ⟨⟨"a", "m"⟩, "/r/members/a/m", 1, 1, 1, 0⟩,
        some ⟨⟨"b", "m"⟩, "/r/members/b/m", 1, 1, 1, 0⟩, [calmPlan]) := by
    simp only [Roster.ofSnapshot, Roster.itemIds, Snapshot.members, Snapshot.items,
      Snapshot.assignments, Snapshot.view, Snapshot.under_eq]
    cbv
  obtain ⟨s, hs, hfacts⟩ := Option.map_eq_some_iff.1 hfacts
  simp only [Prod.mk.injEq] at hfacts
  obtain ⟨hlen, hmembers, hitems, hm, hm', hseat, hseat', hp⟩ := hfacts
  have hdecoded := toOption_eq_some_iff.1 hs
  have hview : ∀ m, Proposal.viewpoint s m =
      ⟨⟨"/r"⟩, 1, m, (Roster.ofSnapshot s).caretaker?.getD m⟩ := fun m => by
    unfold Proposal.viewpoint
    rw [(Snapshot.ofEntries_eq_ok hdecoded).1, (Snapshot.ofEntries_eq_ok hdecoded).2.1]
  refine ⟨s, hdecoded, hlen, converged_of_quiet hdecoded (b := Bounds.standard) (by decide) ?_ ?_ ?_ ?_⟩
  · rw [hmembers]
    exact ⟨_, List.mem_cons_self, rfl⟩
  · have hone : s.items.length = 1 := by rw [← List.length_map (f := (·.value)), hitems]; rfl
    rw [hmembers, hone]
    decide
  · intro i hi
    have hmem := List.mem_map_of_mem (f := fun i : Entry Item => i.value) hi
    rw [hitems, List.mem_singleton] at hmem
    rw [hmem, hmembers]
    decide
  · rw [hmembers]
    refine List.forall_mem_cons.2 ⟨?_, List.forall_mem_singleton.2 ?_⟩
    · exact exists_isEmpty_of_work hm hseat hp (hview _ ▸ work_calmPlan (.inl rfl) _)
    · exact exists_isEmpty_of_work hm' hseat' hp (hview _ ▸ work_calmPlan (.inr rfl) _)

end Snapshot

end Allotment
