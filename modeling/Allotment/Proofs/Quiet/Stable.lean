import Allotment.Proofs.Quiet.Converged
import Allotment.Proofs.Settle.Orderly

/-!
# Converged snapshots are quiet

A snapshot that passes all checks is stable (`Snapshot.IsStable`, `IsStable.of_checks`): nobody sheds
anything, since nobody is over its limit; no replica leaves its zone, since the zones of an item are apart
or are all those that have a member with a limit; and so the placement of every item is what there is
(`IsStable.place_eq`), in which no member has a share.  Members that join in zones with a member which is not
draining open no new zone, hence the snapshot stays stable (`IsStable.join`).  In both cases nobody proposes
anything, within whatever bounds (`void_of_converged`).
-/

namespace Allotment

/-! ### Proposals of nothing -/

namespace Proposal

/-- The proposal neither reads nor writes nor counts anything, and puts nothing off. -/
structure IsVoid (p : Proposal) : Prop where
  transaction : p.transaction = ⟨[], []⟩
  tally : p.tally = Tally.zero
  deferred : p.deferred = false

theorem fill_of_writes_eq_nil (maxWrites : Nat) (batch : Work) {ws : List Work}
    (h : ∀ w ∈ ws, w.writes = []) : fill maxWrites batch ws = (batch, false) := by
  induction ws with
  | nil => rfl
  | cons w ws ih =>
    obtain ⟨hw, hws⟩ := List.forall_mem_cons.1 h
    rw [fill, if_pos (List.isEmpty_iff.2 hw), ih hws]

/-- A member whose shares are all empty proposes nothing. -/
theorem isVoid_of_planned {s : Snapshot} {self : MemberId} {b : Bounds} {p : Proposal}
    (hp : ofSnapshot s self b = some p)
    (h : ∀ t ∈ (Roster.ofSnapshot s).planned b, ∀ repairs,
      ((viewpoint s self).work repairs t).writes = []) : p.IsVoid := by
  have hworks : ∀ w ∈ works s (Roster.ofSnapshot s) self b, w.writes = [] := by
    intro w hw
    rw [show works s (Roster.ofSnapshot s) self b = _ from Viewpoint.works_eq_map_tasks _ _ _] at hw
    obtain ⟨t, ht, rfl⟩ := List.mem_map.1 hw
    refine h t.2 ?_ t.1
    rw [← Viewpoint.map_snd_tasks (viewpoint s self) b.repairs ((Roster.ofSnapshot s).planned b)]
    exact List.mem_map_of_mem ht
  obtain ⟨entry, seat, -, -, rfl⟩ := eq_of_ofSnapshot hp
  rw [fill_of_writes_eq_nil b.writes Work.none hworks]
  split
  · exact ⟨rfl, rfl, rfl⟩
  · exact ⟨rfl, rfl, rfl⟩

end Proposal

/-- Nobody has a share in an item whose slots are dense and whose replicas are consistent, if none of them
is to go and none is to come. -/
theorem Viewpoint.writes_work_eq_nil (v : Viewpoint) (repairs : Nat) {item : Entry Item} {rs : List Replica}
    (hslots : (rs.map (·.slot)).Perm (List.range rs.length))
    (hconsistent : ∀ r ∈ rs, r.assignment.consistent = true) :
    (v.work repairs (.placed item rs ⟨rs, [], [], [], []⟩)).writes = [] := by
  have hdeleted : v.deleted repairs item ⟨rs, [], [], [], []⟩ = [] := by
    simp [deleted, released, repaired]
  have hmoving := moving_eq_nil_of_dense hdeleted hslots
  have hclaims : v.claims repairs item rs ⟨rs, [], [], [], []⟩ = false := by
    simp [claims]
  have hflagging : v.flagging repairs item rs ⟨rs, [], [], [], []⟩ = none := by
    cases hf : v.flagging repairs item rs ⟨rs, [], [], [], []⟩ with
    | none => rfl
    | some r =>
      have hpending := (of_flagging_eq_some hf).1
      have hlive := (of_own?_eq_some (of_pending_eq_some hpending).1).1
      exact absurd (consistent_of_pending hpending) (ne_false_of_eq_true (hconsistent r hlive))
  show (v.placedWork repairs item rs _).writes = []
  rw [writes_placedWork, placedWrites, hdeleted, hmoving, hclaims, hflagging]
  rfl

namespace Snapshot

/-- A snapshot that passes all checks: what is assigned is in order, complete and consistent, nobody is over
its limit, and the zones of an item are apart, unless they are all the zones that are open. -/
structure IsStable (s : Snapshot) : Prop extends IsOrderly s where
  within : ∀ e ∈ s.members,
    (s.assignments.map (·.value)).countP (·.holder == e.value.id) ≤ e.value.limit
  complete : ∀ i ∈ s.items, (s.held i.value.id).length = i.value.replication
  consistent : ∀ a ∈ s.assignments, a.value.consistent = true
  apart : ∀ i ∈ s.items, ((s.held i.value.id).map (·.holder.zone)).Nodup ∨
    ∀ z ∈ s.openZones, z ∈ (s.held i.value.id).map (·.holder.zone)

/-! ### What the checks ask for -/

section Checks

variable {s : Snapshot}

/-- Replicas that lie in as many zones as there are replicas lie apart, and replicas that lie in as many
zones as there are, all of these among them, lie in every zone. -/
theorem nodup_or_covers {zones reached : List String} {wanted : Nat} (hlen : reached.length = wanted)
    (hsub : ∀ z ∈ reached, z ∈ zones) (hspan : min zones.length wanted ≤ reached.eraseDups.length) :
    reached.Nodup ∨ ∀ z ∈ zones, z ∈ reached := by
  have hnodup := nodup_eraseDups reached
  rcases Nat.le_total wanted zones.length with hle | hle
  · left
    have hperm := (hnodup.subperm fun z hz => List.mem_eraseDups.1 hz).perm_of_length_le (by omega)
    exact hperm.nodup_iff.1 hnodup
  · right
    intro z hz
    have hperm := (hnodup.subperm fun z hz => hsub z (List.mem_eraseDups.1 hz)).perm_of_length_le
      (by omega)
    exact List.mem_eraseDups.1 (hperm.mem_iff.2 hz)

/-- Whoever holds something has a limit, if nobody is over its limit. -/
theorem isDraining_eq_false_of_held {e : Entry Member}
    (hwithin : (s.assignments.map (·.value)).countP (·.holder == e.value.id) ≤ e.value.limit)
    {a : Entry Assignment} (ha : a ∈ s.assignments) (hholder : a.value.holder = e.value.id) :
    e.value.isDraining = false := by
  have hpos : 0 < (s.assignments.map (·.value)).countP (·.holder == e.value.id) :=
    List.countP_pos_iff.2 ⟨a.value, List.mem_map_of_mem ha, by simpa using hholder⟩
  have hlimit : e.value.limit ≠ 0 := by omega
  simpa [Member.isDraining] using hlimit

theorem IsStable.of_checks (hs : s.IsFaithful) (hc : Check.convergence s = .ok ())
    (hz : Check.spread s = .ok ()) : s.IsStable := by
  obtain ⟨hcapacity, hdensity, hreplication⟩ := Check.convergence_eq_ok_iff.1 hc
  obtain ⟨hitems, hlive⟩ := Check.replication_eq_ok_iff.1 hreplication
  have hwithin := (Check.capacity_eq_ok_iff hs).1 hcapacity
  have hitem : ∀ a ∈ s.assignments, ∃ i ∈ s.items, i.value.id = a.value.item := fun a ha => by
    obtain ⟨i, hi⟩ := Option.isSome_iff_exists.1 (hlive a ha)
    exact ⟨i, (item?_eq_some_iff hs).1 hi⟩
  have hholders : ∀ a ∈ s.assignments, (s.member? a.value.holder).isSome = true := by
    intro a ha
    obtain ⟨i, hi, hid⟩ := hitem a ha
    exact (Check.item_eq_ok_iff.1 (hitems i hi)).2.2.2 _ (mem_held_iff.2 ⟨a, ha, rfl, hid.symm⟩)
  refine ⟨⟨hs, hlive, hholders, fun id => ?_, fun id => ?_⟩, hwithin, fun i hi => ?_, fun a ha => ?_,
    fun i hi => ?_⟩
  · by_cases hid : id ∈ s.heldItems
    · obtain ⟨a, ha, rfl⟩ := mem_heldItems_iff.1 hid
      obtain ⟨i, hi, hid⟩ := hitem a ha
      exact hid ▸ (Check.item_eq_ok_iff.1 (hitems i hi)).2.2.1
    · rw [held_eq_nil hid]
      exact List.nodup_nil
  · by_cases hid : id ∈ s.heldItems
    · exact Check.density_eq_ok_iff.1 hdensity id hid
    · rw [held_eq_nil hid]
      exact List.Perm.refl _
  · exact (Check.item_eq_ok_iff.1 (hitems i hi)).1
  · obtain ⟨i, hi, hid⟩ := hitem a ha
    exact (Check.item_eq_ok_iff.1 (hitems i hi)).2.1 _ (mem_held_iff.2 ⟨a, ha, rfl, hid.symm⟩)
  · have hlen : ((s.held i.value.id).map (·.holder.zone)).length = i.value.replication :=
      (List.length_map _).trans (Check.item_eq_ok_iff.1 (hitems i hi)).1
    refine nodup_or_covers hlen (fun z hz => ?_) (Check.spread_eq_ok_iff.1 hz i hi)
    obtain ⟨_, hheld, rfl⟩ := List.mem_map.1 hz
    obtain ⟨a, ha, rfl, -⟩ := mem_held_iff.1 hheld
    obtain ⟨e, he⟩ := Option.isSome_iff_exists.1 (hholders a ha)
    obtain ⟨hmem, hid⟩ := (member?_eq_some_iff hs).1 he
    have hopen := isDraining_eq_false_of_held (hwithin e hmem) ha hid.symm
    exact mem_openZones_iff.2 ⟨e, hmem, hopen, congrArg MemberId.zone hid⟩

end Checks

/-! ### Placing what is stable -/

namespace IsStable

variable {s : Snapshot} {g : Group} {item : Entry Item}

theorem shedding_eq_nil (h : s.IsStable) : (Roster.ofSnapshot s).shedding = [] := by
  refine List.eq_nil_iff_forall_not_mem.2 fun k hk => ?_
  obtain ⟨seat, hseat, hover, -⟩ := IsIntact.exists_of_mem_shedding hk
  obtain ⟨e, he, rfl⟩ := Roster.mem_seats_iff.1 hseat
  have hlive : ((s.assignments.map (·.value)).filter fun a => (s.item? a.item).isSome).countP
      (·.holder == e.value.id) ≤ (s.assignments.map (·.value)).countP (·.holder == e.value.id) :=
    List.filter_sublist.countP_le
  exact absurd hover (Nat.not_lt.2 (Nat.le_trans hlive (h.within e he)))

theorem length_replicas (h : s.IsStable) (hg : g ∈ (Roster.ofSnapshot s).groups)
    (hw : g.wanted = some item) : g.replicas.length = item.value.replication := by
  obtain ⟨hitem, hid⟩ := Roster.id_of_wanted h.faithful hg hw
  have hlen := (IsOrderly.group_perm hg).length_eq
  rw [List.length_map, ← hid, h.complete item hitem] at hlen
  exact hlen

theorem consistent_replica (h : s.IsStable) (hg : g ∈ (Roster.ofSnapshot s).groups) {r : Replica}
    (hr : r ∈ g.replicas) : r.assignment.consistent = true := by
  rw [(Roster.mem_groups_iff.1 hg).2] at hr
  obtain ⟨a, ha, rfl, -⟩ := Roster.mem_replicas_group_iff.1 hr
  exact h.consistent a ha

/-- The zones of an item are apart, or it reaches every zone of a member with a place to spare. -/
theorem inZone_le_or_closed (h : s.IsStable) (hg : g ∈ (Roster.ofSnapshot s).groups)
    (hw : g.wanted = some item) :
    (∀ r ∈ g.replicas, Spread.inZone g.replicas r.zone ≤ 1) ∨
      Spread.hasOpenZone (Roster.ofSnapshot s).seats (Room.holdersOf g.replicas) g.replicas = false := by
  obtain ⟨hitem, hid⟩ := Roster.id_of_wanted h.faithful hg hw
  have hzones := (IsOrderly.group_perm hg).map (·.holder.zone)
  rw [List.map_map, ← hid] at hzones
  refine (h.apart item hitem).imp (fun hnodup r hr => ?_) fun hall => ?_
  · have hone := List.nodup_iff_count_le_one.1 (hzones.nodup_iff.2 hnodup) r.zone
    rw [List.count_eq_countP, List.countP_map] at hone
    exact hone
  · refine Bool.eq_false_iff.2 fun hopen => ?_
    obtain ⟨seat, hseat, hpos, -, hnew⟩ := Spread.hasOpenZone_iff.1 hopen
    obtain ⟨e, he, rfl⟩ := Roster.mem_seats_iff.1 hseat
    have hlimit : e.value.limit ≠ 0 := by
      have hpos' : 0 < e.value.limit - (s.assignments.map (·.value)).countP (·.holder == e.value.id) :=
        hpos
      omega
    have hzone := hall e.value.id.zone
      (mem_openZones_iff.2 ⟨e, he, by simpa [Member.isDraining] using hlimit, rfl⟩)
    obtain ⟨r, hr, hrz⟩ := List.mem_map.1 (hzones.mem_iff.2 hzone)
    exact hnew r hr hrz

theorem zoneMove?_eq_none (h : s.IsStable) (hg : g ∈ (Roster.ofSnapshot s).groups)
    (hw : g.wanted = some item) (zoneMoves : Nat) :
    Room.zoneMove? ⟨(Roster.ofSnapshot s).seats, zoneMoves⟩ (Room.holdersOf g.replicas)
      item.value.replication g.replicas = none := by
  refine Option.eq_none_iff_forall_ne_some.2 fun r hr => ?_
  unfold Room.zoneMove? at hr
  split at hr
  next => exact nomatch hr
  next =>
    obtain ⟨hmem, -, hopen⟩ := Spread.zoneMove?_eq_some hr
    have htwo := Spread.two_le_inZone_of_zoneMove? hr
    rcases h.inZone_le_or_closed hg hw with hone | hclosed
    · exact absurd htwo (Nat.not_le.2 (Nat.lt_succ_of_le (hone r hmem)))
    · exact nomatch hclosed.symm.trans hopen

/-- An item is placed as it is, and uses up no room. -/
theorem place_eq (h : s.IsStable) (hg : g ∈ (Roster.ofSnapshot s).groups) (hw : g.wanted = some item)
    (zoneMoves : Nat) :
    Room.place (Roster.ofSnapshot s).shedding item.value.replication g.replicas
        ⟨(Roster.ofSnapshot s).seats, zoneMoves⟩ =
      (⟨g.replicas, [], [], [], []⟩, ⟨(Roster.ofSnapshot s).seats, zoneMoves⟩) := by
  have hmove : Room.zoneMove? ⟨(Roster.ofSnapshot s).seats, zoneMoves⟩
      ((g.replicas.filter fun r => !r.orphan).map (·.holder)) item.value.replication g.replicas = none :=
    h.zoneMove?_eq_none hg hw zoneMoves
  unfold Room.place
  simp [h.shedding_eq_nil, h.intact.liveOf_eq hg, h.intact.broken_eq_nil g hg, hmove,
    h.length_replicas hg hw, Spread.receivers, Spread.excess]

theorem of_mem_placeAll (h : s.IsStable) (zoneMoves : Nat) {gs : List Group}
    (hgs : ∀ g ∈ gs, g ∈ (Roster.ofSnapshot s).groups) {t : Planned}
    (ht : t ∈ Room.placeAll (Roster.ofSnapshot s).shedding ⟨(Roster.ofSnapshot s).seats, zoneMoves⟩ gs) :
    ∃ g ∈ gs, ∃ item, t = .placed item g.replicas ⟨g.replicas, [], [], [], []⟩ := by
  induction gs with
  | nil => exact absurd ht List.not_mem_nil
  | cons g gs ih =>
    obtain ⟨hg, hgs⟩ := List.forall_mem_cons.1 hgs
    obtain ⟨item, hw⟩ := h.exists_wanted hg
    simp only [Room.placeAll, hw, h.place_eq hg hw] at ht
    rcases List.mem_cons.1 ht with rfl | ht
    · exact ⟨g, List.mem_cons_self, item, rfl⟩
    · obtain ⟨g', hg', hplaced⟩ := ih hgs ht
      exact ⟨g', List.mem_cons_of_mem _ hg', hplaced⟩

/-- Whatever is planned for is placed as it is. -/
theorem of_mem_planned (h : s.IsStable) {b : Bounds} {t : Planned}
    (ht : t ∈ (Roster.ofSnapshot s).planned b) :
    ∃ g ∈ (Roster.ofSnapshot s).groups, ∃ item,
      t = .placed item g.replicas ⟨g.replicas, [], [], [], []⟩ :=
  h.of_mem_placeAll b.repairs (fun _ hg => hg) ht

/-- No member of a stable snapshot proposes anything. -/
theorem exists_void (h : s.IsStable) {e : Entry Member} (he : e ∈ s.members) (b : Bounds) :
    ∃ p, Proposal.require s e.value.id b = .ok p ∧ p.IsVoid := by
  obtain ⟨p, hp⟩ := Proposal.exists_of_mem_members h.faithful he b
  refine ⟨p, Proposal.require_eq_ok_iff.2 hp, Proposal.isVoid_of_planned hp fun t ht repairs => ?_⟩
  obtain ⟨g, hg, item, rfl⟩ := h.of_mem_planned ht
  exact Viewpoint.writes_work_eq_nil _ repairs (h.slots_perm hg) fun r hr => h.consistent_replica hg hr

end IsStable

/-! ### Members that join -/

/-- The snapshot differs from an earlier one by members, with any limits, that have joined in zones with a
member which is not draining. -/
structure Joined (s s' : Snapshot) : Prop where
  layout : s'.layout = s.layout
  kept : ∀ k v, s.entries.get? k = some v → s'.entries.get? k = some v
  joined : ∀ k v, s'.entries.get? k = some v → s.entries.get? k = none →
    ∃ m, v.value = .member m ∧ m.id.zone ∈ s.openZones

namespace Joined

variable {s s' : Snapshot}

/-- What is not a member is what it was. -/
theorem get?_iff (h : s.Joined s') {k : String} {v : Stamped Resource}
    (hv : ∀ m, v.value ≠ .member m) : s'.entries.get? k = some v ↔ s.entries.get? k = some v := by
  refine ⟨fun hk => ?_, h.kept k v⟩
  cases hold : s.entries.get? k with
  | none =>
    obtain ⟨m, hm, -⟩ := h.joined k v hk hold
    exact absurd hm (hv m)
  | some w => rw [← h.kept k w hold, hk]

theorem assignments_perm (h : s.Joined s') (hs : s.IsFaithful) (hs' : s'.IsFaithful) :
    s'.assignments.Perm s.assignments := by
  have hnodup : ∀ t : Snapshot, t.assignments.Nodup := fun t => (nodup_view t _ _).of_map
  refine (List.perm_ext_iff_of_nodup (hnodup s') (hnodup s)).2 fun a => ?_
  rw [mem_assignments_iff hs', mem_assignments_iff hs]
  exact h.get?_iff fun m hm => nomatch hm

theorem mem_items_iff (h : s.Joined s') (hs : s.IsFaithful) (hs' : s'.IsFaithful) {i : Entry Item} :
    i ∈ s'.items ↔ i ∈ s.items := by
  rw [Snapshot.mem_items_iff hs', Snapshot.mem_items_iff hs]
  exact h.get?_iff fun m hm => nomatch hm

theorem mem_members (h : s.Joined s') (hs : s.IsFaithful) (hs' : s'.IsFaithful) {e : Entry Member}
    (he : e ∈ s.members) : e ∈ s'.members :=
  (mem_members_iff hs').2 (h.kept _ _ ((mem_members_iff hs).1 he))

/-- Every member was there, or has joined in an open zone. -/
theorem mem_or_zone (h : s.Joined s') (hs : s.IsFaithful) (hs' : s'.IsFaithful) {e : Entry Member}
    (he : e ∈ s'.members) : e ∈ s.members ∨ e.value.id.zone ∈ s.openZones := by
  have hget := (mem_members_iff hs').1 he
  cases hold : s.entries.get? e.key with
  | none =>
    obtain ⟨m, hm, hzone⟩ := h.joined _ _ hget hold
    obtain rfl := Resource.member.inj hm
    exact .inr hzone
  | some w =>
    obtain rfl := Option.some.inj ((h.kept _ w hold).symm.trans hget)
    exact .inl ((mem_members_iff hs).2 hold)

theorem mem_openZones (h : s.Joined s') (hs : s.IsFaithful) (hs' : s'.IsFaithful) {z : String}
    (hz : z ∈ s'.openZones) : z ∈ s.openZones := by
  obtain ⟨e, he, hopen, rfl⟩ := mem_openZones_iff.1 hz
  rcases h.mem_or_zone hs hs' he with he | hzone
  · exact mem_openZones_iff.2 ⟨e, he, hopen, rfl⟩
  · exact hzone

theorem held_perm (h : s.Joined s') (hs : s.IsFaithful) (hs' : s'.IsFaithful) (id : String) :
    (s'.held id).Perm (s.held id) := by
  have hvalues := (h.assignments_perm hs hs').map (·.value)
  exact hvalues.filter _

/-- A member that holds something has been there before. -/
theorem mem_members_of_held (h : s.Joined s') (hs : s.IsOrderly) (hs' : s'.IsFaithful)
    {e : Entry Member} (he : e ∈ s'.members) {a : Entry Assignment} (ha : a ∈ s.assignments)
    (hholder : a.value.holder = e.value.id) : e ∈ s.members := by
  obtain ⟨e₀, he₀⟩ := Option.isSome_iff_exists.1 (hs.holders a ha)
  obtain ⟨hmem, hid⟩ := (member?_eq_some_iff hs.faithful).1 he₀
  obtain rfl := eq_of_mem_members hs' (h.mem_members hs.faithful hs' hmem) he (hid.trans hholder)
  exact hmem

theorem isOrderly (h : s.Joined s') (hs : s.IsOrderly) (hs' : s'.IsFaithful) : s'.IsOrderly := by
  have hperm := h.assignments_perm hs.faithful hs'
  refine ⟨hs', fun a ha => ?_, fun a ha => ?_, fun id => ?_, fun id => ?_⟩
  · obtain ⟨i, hi⟩ := Option.isSome_iff_exists.1 (hs.items a (hperm.mem_iff.1 ha))
    obtain ⟨hmem, hid⟩ := (item?_eq_some_iff hs.faithful).1 hi
    exact Option.isSome_iff_exists.2
      ⟨i, (item?_eq_some_iff hs').2 ⟨(h.mem_items_iff hs.faithful hs').2 hmem, hid⟩⟩
  · obtain ⟨e, he⟩ := Option.isSome_iff_exists.1 (hs.holders a (hperm.mem_iff.1 ha))
    obtain ⟨hmem, hid⟩ := (member?_eq_some_iff hs.faithful).1 he
    exact Option.isSome_iff_exists.2
      ⟨e, (member?_eq_some_iff hs').2 ⟨h.mem_members hs.faithful hs' hmem, hid⟩⟩
  · exact ((h.held_perm hs.faithful hs' id).map _).nodup_iff.2 (hs.distinct id)
  · have hheld := h.held_perm hs.faithful hs' id
    rw [hheld.length_eq]
    exact (hheld.map _).trans (hs.dense id)

end Joined

/-- Members that join in open zones leave a stable snapshot stable. -/
theorem IsStable.join {s s' : Snapshot} (h : s.IsStable) (hj : s.Joined s') (hs' : s'.IsFaithful) :
    s'.IsStable := by
  have hperm := hj.assignments_perm h.faithful hs'
  refine ⟨hj.isOrderly h.toIsOrderly hs', fun e he => ?_, fun i hi => ?_, fun a ha => ?_, fun i hi => ?_⟩
  · rw [(hperm.map (·.value)).countP_eq]
    by_cases hpos : 0 < (s.assignments.map (·.value)).countP (·.holder == e.value.id)
    · obtain ⟨_, hmem, hholder⟩ := List.countP_pos_iff.1 hpos
      obtain ⟨a, ha, rfl⟩ := List.mem_map.1 hmem
      exact h.within e (hj.mem_members_of_held h.toIsOrderly hs' he ha (eq_of_beq hholder))
    · omega
  · rw [(hj.held_perm h.faithful hs' _).length_eq]
    exact h.complete i ((hj.mem_items_iff h.faithful hs').1 hi)
  · exact h.consistent a (hperm.mem_iff.1 ha)
  · have hzones := (hj.held_perm h.faithful hs' i.value.id).map (·.holder.zone)
    refine (h.apart i ((hj.mem_items_iff h.faithful hs').1 hi)).imp hzones.nodup_iff.2 fun hall z hz => ?_
    exact hzones.mem_iff.2 (hall z (hj.mem_openZones h.faithful hs' hz))

/-- A keyspace that has converged is quiet: if a snapshot of any entries passes all checks, then every member
proposes nothing at all, within any bounds; and so does every member after others have joined, with any
limits, in zones that have a member which is not draining. -/
theorem void_of_converged {l : Layout} {revision : Int} {es : List (Entry Bytes)} {s : Snapshot}
    (hs : Snapshot.ofEntries l revision es = .ok s) (hc : Check.convergence s = .ok ())
    (hz : Check.spread s = .ok ()) :
    (∀ e ∈ s.members, ∀ b, ∃ p, Proposal.require s e.value.id b = .ok p ∧ p.IsVoid) ∧
      ∀ revision' es' s', Snapshot.ofEntries l revision' es' = .ok s' → s.Joined s' →
        ∀ e ∈ s'.members, ∀ b, ∃ p, Proposal.require s' e.value.id b = .ok p ∧ p.IsVoid := by
  have hstable := IsStable.of_checks (faithful_of_ofEntries hs) hc hz
  exact ⟨fun e he b => hstable.exists_void he b, fun revision' es' s' hs' hj e he b =>
    (hstable.join hj (faithful_of_ofEntries hs')).exists_void he b⟩

/-- Members with and without a limit join those of `calmEntries` in their zones. -/
def joinedEntries : List (Entry Bytes) :=
  calmEntries ++
    [⟨⟨Member.encode 7, 2, 2⟩, "/r/members/a/n"⟩, ⟨⟨Member.encode 0, 3, 3⟩, "/r/members/b/n"⟩]

/-- What there is in the snapshot of `calmEntries`. -/
def calmBindings : List (String × Stamped Resource) :=
  [("/r/assignments/job/a/m/0", ⟨.assignment ⟨"job", ⟨"a", "m"⟩, 0, true⟩, 1, 1⟩),
    ("/r/assignments/job/b/m/1", ⟨.assignment ⟨"job", ⟨"b", "m"⟩, 1, true⟩, 1, 1⟩),
    ("/r/items/job", ⟨.item ⟨"job", 2⟩, 1, 1⟩), ("/r/members/a/m", ⟨.member ⟨⟨"a", "m"⟩, 1⟩, 1, 1⟩),
    ("/r/members/b/m", ⟨.member ⟨⟨"b", "m"⟩, 1⟩, 1, 1⟩)]

/-- What there is in the snapshot of `joinedEntries`. -/
def joinedBindings : List (String × Stamped Resource) :=
  [("/r/assignments/job/a/m/0", ⟨.assignment ⟨"job", ⟨"a", "m"⟩, 0, true⟩, 1, 1⟩),
    ("/r/assignments/job/b/m/1", ⟨.assignment ⟨"job", ⟨"b", "m"⟩, 1, true⟩, 1, 1⟩),
    ("/r/items/job", ⟨.item ⟨"job", 2⟩, 1, 1⟩), ("/r/members/a/m", ⟨.member ⟨⟨"a", "m"⟩, 1⟩, 1, 1⟩),
    ("/r/members/a/n", ⟨.member ⟨⟨"a", "n"⟩, 7⟩, 2, 2⟩), ("/r/members/b/m", ⟨.member ⟨⟨"b", "m"⟩, 1⟩, 1, 1⟩),
    ("/r/members/b/n", ⟨.member ⟨⟨"b", "n"⟩, 0⟩, 3, 3⟩)]

/-- The snapshot of `calmEntries` passes all checks. -/
theorem exists_checks_calmEntries :
    ∃ s, Snapshot.ofEntries ⟨"/r"⟩ 1 calmEntries = .ok s ∧ s.entries.bindings = calmBindings ∧
      s.openZones = ["a", "b"] ∧ Check.convergence s = .ok () ∧ Check.spread s = .ok () := by
  have hfacts : (Snapshot.ofEntries ⟨"/r"⟩ 1 calmEntries).toOption.map (fun s =>
      (s.entries.bindings, s.members, s.items, s.assignments, s.member? ⟨"a", "m"⟩,
        s.member? ⟨"b", "m"⟩, s.item? "job")) =
      some (calmBindings,
        [⟨⟨⟨⟨"a", "m"⟩, 1⟩, 1, 1⟩, "/r/members/a/m"⟩, ⟨⟨⟨⟨"b", "m"⟩, 1⟩, 1, 1⟩, "/r/members/b/m"⟩],
        [⟨⟨⟨"job", 2⟩, 1, 1⟩, "/r/items/job"⟩],
        [⟨⟨⟨"job", ⟨"a", "m"⟩, 0, true⟩, 1, 1⟩, "/r/assignments/job/a/m/0"⟩,
          ⟨⟨⟨"job", ⟨"b", "m"⟩, 1, true⟩, 1, 1⟩, "/r/assignments/job/b/m/1"⟩],
        some ⟨⟨⟨⟨"a", "m"⟩, 1⟩, 1, 1⟩, "/r/members/a/m"⟩,
        some ⟨⟨⟨⟨"b", "m"⟩, 1⟩, 1, 1⟩, "/r/members/b/m"⟩,
        some ⟨⟨⟨"job", 2⟩, 1, 1⟩, "/r/items/job"⟩) := by
    simp only [Snapshot.members, Snapshot.items, Snapshot.assignments, Snapshot.view, Snapshot.under_eq]
    cbv
  obtain ⟨s, hs, hfacts⟩ := Option.map_eq_some_iff.1 hfacts
  simp only [Prod.mk.injEq] at hfacts
  obtain ⟨hbindings, hmembers, hitems, hassignments, ha, hb, hjob⟩ := hfacts
  have hdecoded := toOption_eq_some_iff.1 hs
  have hzones : s.openZones = ["a", "b"] := by
    rw [openZones, hmembers]
    decide
  have hheld : s.held "job" = [⟨"job", ⟨"a", "m"⟩, 0, true⟩, ⟨"job", ⟨"b", "m"⟩, 1, true⟩] := by
    rw [held, hassignments]
    rfl
  refine ⟨s, hdecoded, hbindings, hzones, Check.convergence_eq_ok_iff.2
    ⟨(Check.capacity_eq_ok_iff (faithful_of_ofEntries hdecoded)).2 ?_,
      Check.density_eq_ok_iff.2 fun id hid => ?_, Check.replication_eq_ok_iff.2 ⟨?_, ?_⟩⟩,
    Check.spread_eq_ok_iff.2 ?_⟩
  · rw [hmembers, hassignments]
    decide
  · obtain ⟨a, hmem, rfl⟩ := mem_heldItems_iff.1 hid
    rw [hassignments] at hmem
    have hname : a.value.item = "job" := by
      clear hid
      revert a
      decide
    rw [hname, hheld]
    exact List.Perm.refl _
  · rw [hitems]
    refine List.forall_mem_singleton.2 (Check.item_eq_ok_iff.2 ?_)
    rw [hheld]
    exact ⟨rfl, by decide, by decide, by simp [ha, hb]⟩
  · rw [hassignments]
    simp [hjob]
  · rw [hitems]
    refine List.forall_mem_singleton.2 ?_
    rw [hheld, hzones]
    decide

theorem exists_joinedEntries :
    ∃ s, Snapshot.ofEntries ⟨"/r"⟩ 3 joinedEntries = .ok s ∧ s.entries.bindings = joinedBindings ∧
      s.members.length = 4 := by
  have hfacts : (Snapshot.ofEntries ⟨"/r"⟩ 3 joinedEntries).toOption.map (fun s =>
      (s.entries.bindings, s.members.length)) = some (joinedBindings, 4) := by
    simp only [Snapshot.members, Snapshot.view, Snapshot.under_eq]
    cbv
  obtain ⟨s, hs, hfacts⟩ := Option.map_eq_some_iff.1 hfacts
  exact ⟨s, toOption_eq_some_iff.1 hs, Prod.mk.inj hfacts⟩

/-- The members have joined in zones that are open. -/
theorem joined_of_bindings {s s' : Snapshot} (hl : s'.layout = s.layout)
    (h : s.entries.bindings = calmBindings) (h' : s'.entries.bindings = joinedBindings)
    (hzones : s.openZones = ["a", "b"]) : s.Joined s' := by
  refine ⟨hl, fun k v hk => ?_, fun k v hk hnone => ?_⟩
  · rw [KeyMap.get?_eq_some_iff, h] at hk
    rw [KeyMap.get?_eq_some_iff, h']
    exact (by decide : ∀ b ∈ calmBindings, b ∈ joinedBindings) _ hk
  · rw [KeyMap.get?_eq_some_iff, h'] at hk
    have hcases : (k, v) ∈ s.entries.bindings ∨
        (k, v) = ("/r/members/a/n", ⟨.member ⟨⟨"a", "n"⟩, 7⟩, 2, 2⟩) ∨
        (k, v) = ("/r/members/b/n", ⟨.member ⟨⟨"b", "n"⟩, 0⟩, 3, 3⟩) := by
      rw [h]
      exact (by decide : ∀ b ∈ joinedBindings, b ∈ calmBindings ∨ b = _ ∨ b = _) _ hk
    rw [hzones]
    rcases hcases with hold | hnew | hnew
    · cases hnone.symm.trans (KeyMap.get?_eq_some_iff.2 hold)
    · obtain rfl := (Prod.mk.inj hnew).2
      exact ⟨_, rfl, by decide⟩
    · obtain rfl := (Prod.mk.inj hnew).2
      exact ⟨_, rfl, by decide⟩

theorem void_of_joinedEntries :
    ∃ s s', Snapshot.ofEntries ⟨"/r"⟩ 1 calmEntries = .ok s ∧
      Snapshot.ofEntries ⟨"/r"⟩ 3 joinedEntries = .ok s' ∧ s'.members.length = 4 ∧
      (∀ e ∈ s.members, ∀ b, ∃ p, Proposal.require s e.value.id b = .ok p ∧ p.IsVoid) ∧
      ∀ e ∈ s'.members, ∀ b, ∃ p, Proposal.require s' e.value.id b = .ok p ∧ p.IsVoid := by
  obtain ⟨s, hs, hbindings, hzones, hconverged, hspread⟩ := exists_checks_calmEntries
  obtain ⟨s', hs', hbindings', hcount⟩ := exists_joinedEntries
  have hlayout := (ofEntries_eq_ok hs').1.trans (ofEntries_eq_ok hs).1.symm
  obtain ⟨hvoid, hvoid'⟩ := void_of_converged hs hconverged hspread
  exact ⟨s, s', hs, hs', hcount, hvoid,
    hvoid' 3 joinedEntries s' hs' (joined_of_bindings hlayout hbindings hbindings' hzones)⟩

end Snapshot

end Allotment
