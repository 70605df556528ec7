import Allotment.Proofs.Plan.Intact
import Allotment.Proofs.Quiet.Idle

/-!
# Calm items are settled

A snapshot is calm if it is intact and no member proposes anything (`Snapshot.IsCalm`); a quiet one is
(`IsQuiet.calm`).  In a calm snapshot with enough room the members that are not draining suffice for the
wanted replicas of each item, none of them is missing and none is in excess: the item is settled
(`Settled`, `IsCalm.settled`), and its placement leaves the room to the other items as it was
(`IsCalm.site`).  Its zones are as far apart as they can be if repairs are allowed (`IsCalm.spread`).
-/

namespace Allotment

/-- What is left of an item of which nothing needs to change. -/
structure Settled (s : Snapshot) (item : Item) (rs : List Replica) : Prop where
  length : rs.length = item.replication
  consistent : ∀ r ∈ rs, r.assignment.consistent = true
  packed : isPacked rs = true
  unshed : ∀ r ∈ rs, r.key ∉ (Roster.ofSnapshot s).shedding

namespace Snapshot

/-- An intact snapshot in which no member proposes anything. -/
structure IsCalm (s : Snapshot) (b : Bounds) : Prop where
  silent : s.IsSilent b
  intact : s.IsIntact

theorem IsQuiet.calm {s : Snapshot} {b : Bounds} (h : s.IsQuiet b) : s.IsCalm b :=
  ⟨h.silent, h.faithful, fun _ hg => h.wanted hg, fun _ hg => h.broken_eq_nil hg⟩

/-! ### One item -/

/-- An item of a calm snapshot that is placed while no other placement has used up any seat. -/
structure Site (s : Snapshot) (b : Bounds) (g : Group) (item : Entry Item) (room : Room) : Prop where
  calm : s.IsCalm b
  group : g ∈ (Roster.ofSnapshot s).groups
  wanted : g.wanted = some item
  seats : room.seats = (Roster.ofSnapshot s).seats
  planned : .placed item g.replicas
    (room.place (Roster.ofSnapshot s).shedding item.value.replication g.replicas).1 ∈
      (Roster.ofSnapshot s).planned b

/-- The placement of the item. -/
abbrev placement (s : Snapshot) (g : Group) (item : Entry Item) (room : Room) : Placement :=
  (room.place (Roster.ofSnapshot s).shedding item.value.replication g.replicas).1

namespace Site

variable {s : Snapshot} {b : Bounds} {g : Group} {item : Entry Item} {room : Room}

theorem live_eq (h : Site s b g item room) : (placement s g item room).live = g.replicas :=
  h.calm.intact.liveOf_eq h.group

theorem replicasOf (h : Site s b g item room) : ReplicasOf s.layout g.id g.replicas := by
  obtain ⟨hid, he⟩ := Roster.mem_groups_iff.1 h.group
  rw [he]
  exact Roster.replicasOf_group h.calm.intact.faithful hid

/-- An idle member deletes, moves, claims and flags nothing here. -/
theorem parts (h : Site s b g item room) {m : MemberId} (hm : s.IsIdle b m) :
    (Proposal.viewpoint s m).deleted b.repairs item (placement s g item room) = [] ∧
      (Proposal.viewpoint s m).moving b.repairs item g.replicas (placement s g item room) = [] ∧
      (Proposal.viewpoint s m).claims b.repairs item g.replicas (placement s g item room) = false ∧
      (Proposal.viewpoint s m).flagging b.repairs item g.replicas (placement s g item room) = none :=
  Viewpoint.parts_of_writes_eq_nil (hm _ h.planned)

theorem idle (h : Site s b g item room) {r : Replica} (hr : r ∈ g.replicas) : s.IsIdle b r.holder :=
  h.calm.silent.idle_of_holder h.group hr (h.calm.intact.orphan_eq_false h.group hr)

/-- The holder of the replica that would move first moves it. -/
theorem renumbering_eq_nil (h : Site s b g item room) : renumbering g.replicas = [] := by
  cases hm : renumbering g.replicas with
  | nil => rfl
  | cons m ms =>
    have hmem : m.1 ∈ g.replicas := (mem_of_mem_renumbering (hm ▸ List.mem_cons_self)).1
    obtain ⟨hdel, hmoving, -⟩ := h.parts (h.idle hmem)
    have hheld : m.1.isHeldBy m.1.holder = true := by
      simp [Replica.isHeldBy, h.calm.intact.orphan_eq_false h.group hmem]
    unfold Viewpoint.moving Viewpoint.moves at hmoving
    rw [hdel, List.isEmpty_nil, if_pos rfl, hm, List.take_succ_cons, List.take_zero] at hmoving
    exact absurd hheld (List.filter_eq_nil_iff.1 hmoving m List.mem_cons_self)

theorem slots_perm (h : Site s b g item room) :
    (g.replicas.map (·.slot)).Perm (List.range g.replicas.length) :=
  renumbering_eq_nil_iff.1 h.renumbering_eq_nil

theorem isPacked (h : Site s b g item room) : isPacked g.replicas = true :=
  isPacked_of_ordered h.replicasOf.ordered h.slots_perm

/-- The first receiver claims its replica. -/
theorem receivers_eq_nil (h : Site s b g item room) : (placement s g item room).receivers = [] := by
  cases hrec : (placement s g item room).receivers with
  | nil => rfl
  | cons m ms =>
    have hmem : m ∈ (placement s g item room).receivers := by
      rw [hrec]
      exact List.mem_cons_self
    have hids : (room.seats.map (·.id)).Nodup := by
      rw [h.seats]
      exact Roster.nodup_ids_seats h.calm.intact.faithful
    rw [Room.receivers_place] at hmem
    have hspare := ((Spread.receivers_spec _ _ _ hids m).1 hmem).2
    obtain ⟨seat, hseat, rfl, hpos⟩ := Spread.exists_seat_of_spareOf_pos
      (show 0 < Spread.spareOf room.seats m by omega)
    rw [h.seats] at hseat
    obtain ⟨e, he, rfl⟩ := Roster.mem_seats_iff.1 hseat
    have hlimit : e.value.limit ≠ 0 := by
      have hpos' : 0 < e.value.limit -
          (s.assignments.map (·.value)).countP (·.holder == e.value.id) := hpos
      omega
    obtain ⟨hdel, hmoving, hclaims, -⟩ := h.parts (h.calm.silent.idle_of_limit he hlimit)
    have hclaimed := Viewpoint.claims_eq_true_iff.2 ⟨hdel, hmoving, h.isPacked, by rw [hrec]; rfl⟩
    rw [hclaims] at hclaimed
    exact nomatch hclaimed

/-- If everybody with a place to spare holds the item, then whatever is not shed stays. -/
theorem staying_eq_of_seats (h : Site s b g item room)
    (hnone : ∀ seat ∈ room.seats, 0 < seat.spare → seat.id ∈ Room.holdersOf g.replicas) :
    (placement s g item room).staying =
      g.replicas.filter fun r => !(Roster.ofSnapshot s).shedding.contains r.key := by
  have hmove : room.zoneMove? (Room.holdersOf g.replicas) item.value.replication
      (Room.unshed (Roster.ofSnapshot s).shedding g.replicas) = none := by
    refine Option.eq_none_iff_forall_ne_some.2 fun r hm => ?_
    obtain ⟨seat, hseat, hpos, hnot, -⟩ :=
      Spread.hasOpenZone_iff.1 (Room.zoneMove?_eq_some _ _ hm).2
    exact hnot (hnone seat hseat hpos)
  show Placement.staying (Room.place _ _ _ _).1 = _
  rw [Room.staying_place, hmove]
  unfold Room.unshed
  rw [h.calm.intact.liveOf_eq h.group]
  simp

/-- Enough replicas stay: otherwise some member could still receive one. -/
theorem wanted_le_length_staying (h : Site s b g item room) (hroomy : s.IsRoomy) :
    item.value.replication ≤ (placement s g item room).staying.length := by
  have hnil := h.receivers_eq_nil
  rw [Room.receivers_place, Spread.receivers_eq_nil_iff] at hnil
  rcases hnil with hneed | hnone
  · exact Nat.le_of_sub_eq_zero hneed
  rw [h.staying_eq_of_seats hnone]
  obtain ⟨hitem, -⟩ := Roster.id_of_wanted h.calm.intact.faithful h.group h.wanted
  refine Nat.le_trans (hroomy.replication item hitem) ?_
  have hnodup : ((s.members.filter fun e => !e.value.isDraining).map (·.value.id)).Nodup := by
    have hids := Roster.nodup_ids_seats h.calm.intact.faithful
    rw [Roster.ids_seats] at hids
    exact hids.sublist (List.filter_sublist.map _)
  rw [← List.length_map (f := fun e : Entry Member => e.value.id),
    ← List.length_map (f := fun r : Replica => r.holder)]
  refine (hnodup.subperm fun m hm => ?_).length_le
  obtain ⟨e, he, rfl⟩ := List.mem_map.1 hm
  obtain ⟨he, hopen⟩ := List.mem_filter.1 he
  have hopen : e.value.isDraining = false := by simpa using hopen
  obtain ⟨r, hr, hholder⟩ : ∃ r ∈ g.replicas, r.holder = e.value.id := by
    refine (h.calm.intact.exists_replica_or_seat hroomy.limit h.group h.wanted he hopen).resolve_right ?_
    rintro ⟨seat, hseat, -, hpos, hnot⟩
    exact hnot (hnone seat (h.seats ▸ hseat) hpos)
  have hkeep := h.calm.intact.not_mem_shedding hroomy.limit h.group hr he hopen hholder
  exact List.mem_map.2 ⟨r, List.mem_filter.2 ⟨hr, by simpa using hkeep⟩, hholder⟩

/-! ### What is kept -/

theorem mem_live_of_mem_kept (h : Site s b g item room) {r : Replica}
    (hr : r ∈ (placement s g item room).kept) : r ∈ g.replicas := by
  rw [← h.live_eq]
  exact (Placement.mem_kept_iff.1 hr).1

theorem nodup_staying (h : Site s b g item room) : (placement s g item room).staying.Nodup := by
  unfold Placement.staying
  rw [h.live_eq]
  exact h.replicasOf.nodup_self.filter _

/-- Exactly the wanted number of replicas is kept. -/
theorem length_kept (h : Site s b g item room) (hroomy : s.IsRoomy) :
    (placement s g item room).kept.length = item.value.replication := by
  have hexcess : (placement s g item room).excess = Spread.excess
      ((placement s g item room).staying.length - item.value.replication)
      (placement s g item room).staying := Room.excess_place _ _ _ _
  have hperm := perm_append_filter h.nodup_staying
    (hexcess ▸ Spread.nodup_excess h.nodup_staying)
    (fun r hr => Spread.mem_of_mem_excess (hexcess ▸ hr))
  have hlen := hperm.length_eq
  have hdropped := congrArg List.length hexcess
  rw [Spread.length_excess] at hdropped
  rw [List.length_append] at hlen
  have hwanted := h.wanted_le_length_staying hroomy
  show ((placement s g item room).staying.filter
    fun r => !(placement s g item room).excess.contains r).length = _
  omega

theorem own?_eq (h : Site s b g item room) {r : Replica} (hr : r ∈ g.replicas) :
    (Proposal.viewpoint s r.holder).own? (placement s g item room) = some r := by
  have hheld : r.isHeldBy r.holder = true := by
    simp [Replica.isHeldBy, h.calm.intact.orphan_eq_false h.group hr]
  cases hown : (Proposal.viewpoint s r.holder).own? (placement s g item room) with
  | none =>
    have hnone := List.find?_eq_none.1 hown r (by rw [h.live_eq]; exact hr)
    exact absurd hheld hnone
  | some q =>
    obtain ⟨hq, -, hholder⟩ := Viewpoint.of_own?_eq_some hown
    rw [h.live_eq] at hq
    rw [List.inj_on_of_nodup_map (h.calm.intact.nodup_holders h.group) hq hr hholder]

/-- Every replica that is kept is consistent: otherwise its holder would make it so. -/
theorem consistent_of_mem_kept (h : Site s b g item room) (hroomy : s.IsRoomy) {r : Replica}
    (hr : r ∈ (placement s g item room).kept) : r.assignment.consistent = true := by
  have hmem := h.mem_live_of_mem_kept hr
  cases hc : r.assignment.consistent with
  | true => rfl
  | false =>
    exfalso
    -- its holder is idle, but nothing keeps it from writing the flag
    obtain ⟨-, hmoving, -, hflagging⟩ := h.parts (h.idle hmem)
    have hbroken : (placement s g item room).broken = [] := h.calm.intact.broken_eq_nil g h.group
    have hfilled : item.value.isFilledBy ((placement s g item room).kept.map (·.assignment)) = true := by
      unfold Item.isFilledBy distinctHolders
      rw [Bool.and_eq_true, beq_iff_eq, decide_eq_true_eq, List.length_map, h.length_kept hroomy,
        List.map_map]
      refine ⟨rfl, ?_⟩
      have hlive : ((placement s g item room).live.map (·.holder)).Nodup := by
        rw [h.live_eq]
        exact h.calm.intact.nodup_holders h.group
      exact hlive.sublist ((List.filter_sublist.trans List.filter_sublist).map _)
    have hpending : (Proposal.viewpoint s r.holder).pending item (placement s g item room) =
        some r := by
      unfold Viewpoint.pending
      rw [h.own?_eq hmem, Option.filter_eq_some_iff]
      refine ⟨rfl, ?_⟩
      rw [hbroken, hfilled, hc]
      simpa using hr
    have hdense : areDense (g.replicas.map (·.assignment)) = true := by
      unfold areDense
      rw [List.map_map]
      refine countsUp_iff.2 ?_
      rw [List.length_map]
      exact h.slots_perm
    unfold Viewpoint.flagging at hflagging
    rw [hmoving, hdense, hpending] at hflagging
    exact nomatch hflagging

/-- No replica is to go: its holder would release it, since those that are kept suffice. -/
theorem not_leaving (h : Site s b g item room) (hroomy : s.IsRoomy) {r : Replica}
    (hr : r ∈ g.replicas) :
    r ∉ (placement s g item room).leaving ∧ r ∉ (placement s g item room).excess := by
  refine Decidable.byContradiction fun hgoes => ?_
  have hgoes : r ∈ (placement s g item room).leaving ∨ r ∈ (placement s g item room).excess := by
    refine Decidable.byContradiction fun hn => hgoes ?_
    exact not_or.1 hn
  obtain ⟨hdel, -⟩ := h.parts (h.idle hr)
  have hkept : item.value.replication ≤ ((placement s g item room).live.filter (· != r)).countP
      (·.assignment.consistent) := by
    rw [← h.length_kept hroomy, List.countP_eq_length_filter]
    have hnodup : (placement s g item room).kept.Nodup := h.nodup_staying.filter _
    refine (hnodup.subperm fun q hq => ?_).length_le
    obtain ⟨hlive, hleaving, hexcess⟩ := Placement.mem_kept_iff.1 hq
    have hne : q ≠ r := by
      rintro rfl
      exact hgoes.elim hleaving hexcess
    refine List.mem_filter.2 ⟨List.mem_filter.2 ⟨hlive, by simpa using hne⟩, ?_⟩
    exact h.consistent_of_mem_kept hroomy hq
  have hreleased : r ∈ (Proposal.viewpoint s r.holder).released item.value.replication
      (placement s g item room) := Viewpoint.mem_released_iff.2 ⟨h.own?_eq hr, hgoes, hkept⟩
  have hmem : r ∈ (Proposal.viewpoint s r.holder).deleted b.repairs item
      (placement s g item room) := List.mem_append_left _ hreleased
  rw [hdel] at hmem
  exact nomatch hmem

theorem unshed_eq (h : Site s b g item room) (hroomy : s.IsRoomy) :
    ∀ r ∈ g.replicas, r.key ∉ (Roster.ofSnapshot s).shedding := by
  intro r hr hk
  refine (h.not_leaving hroomy hr).1 ?_
  show r ∈ (Room.place _ _ _ _).1.leaving
  rw [Room.leaving_place, h.calm.intact.liveOf_eq h.group]
  exact List.mem_append_left _ (List.mem_filter.2 ⟨hr, by simpa using hk⟩)

theorem zoneMove?_eq_none (h : Site s b g item room) (hroomy : s.IsRoomy) :
    room.zoneMove? (Room.holdersOf g.replicas) item.value.replication
      (Room.unshed (Roster.ofSnapshot s).shedding g.replicas) = none := by
  cases hm : room.zoneMove? (Room.holdersOf g.replicas) item.value.replication
      (Room.unshed (Roster.ofSnapshot s).shedding g.replicas) with
  | none => rfl
  | some r =>
    have hmem : r ∈ g.replicas := by
      have hlive := (List.mem_filter.1 (Room.zoneMove?_eq_some _ _ hm).1).1
      rwa [h.calm.intact.liveOf_eq h.group] at hlive
    refine absurd ?_ (h.not_leaving hroomy hmem).1
    show r ∈ (Room.place _ _ _ _).1.leaving
    rw [Room.leaving_place, hm]
    exact List.mem_append_right _ List.mem_cons_self

theorem kept_eq (h : Site s b g item room) (hroomy : s.IsRoomy) :
    (placement s g item room).kept = g.replicas := by
  unfold Placement.kept Placement.staying
  rw [h.live_eq, List.filter_filter, List.filter_eq_self]
  intro r hr
  obtain ⟨hleaving, hexcess⟩ := h.not_leaving hroomy hr
  simp [hleaving, hexcess]

/-- The item is settled. -/
theorem settled (h : Site s b g item room) (hroomy : s.IsRoomy) : Settled s item.value g.replicas where
  length := by
    rw [← h.length_kept hroomy, h.kept_eq hroomy]
  consistent := fun r hr => by
    rw [← h.kept_eq hroomy] at hr
    exact h.consistent_of_mem_kept hroomy hr
  packed := h.isPacked
  unshed := h.unshed_eq hroomy

/-- Replicas share a zone only if no zone is open to the item. -/
theorem spread (h : Site s b g item room) (hroomy : s.IsRoomy) (hmoves : room.zoneMoves ≠ 0) :
    (∀ r ∈ g.replicas, Spread.inZone g.replicas r.zone ≤ 1) ∨
      Spread.hasOpenZone (Roster.ofSnapshot s).seats (Room.holdersOf g.replicas) g.replicas =
        false := by
  have hmove := h.zoneMove?_eq_none hroomy
  have hunshed : Room.unshed (Roster.ofSnapshot s).shedding g.replicas = g.replicas := by
    unfold Room.unshed
    rw [h.calm.intact.liveOf_eq h.group, List.filter_eq_self]
    exact fun r hr => by simpa using h.unshed_eq hroomy r hr
  rw [hunshed, Room.zoneMove?, if_neg hmoves, h.seats] at hmove
  exact Spread.of_zoneMove?_eq_none hmove (Nat.le_of_eq (h.settled hroomy).length.symm)

/-- The placement leaves the room as it was. -/
theorem room_eq (h : Site s b g item room) (hroomy : s.IsRoomy) :
    (room.place (Roster.ofSnapshot s).shedding item.value.replication g.replicas).2 = room := by
  have hseats : (room.place (Roster.ofSnapshot s).shedding item.value.replication g.replicas).2.seats =
      room.seats := by
    have hnil := h.receivers_eq_nil
    rw [Room.receivers_place] at hnil
    rw [Room.seats_place]
    exact Spread.seats_of_receivers_eq_nil hnil
  have hmoves : (room.place (Roster.ofSnapshot s).shedding item.value.replication
      g.replicas).2.zoneMoves = room.zoneMoves := by
    rw [Room.zoneMoves_place, h.zoneMove?_eq_none hroomy]
    rfl
  exact congr (congrArg Room.mk hseats) hmoves

end Site

/-! ### All items -/

/-- If no placement uses up any room, then every item is placed in the same room. -/
theorem mem_placeAll_of_const {shedding : List String} (room : Room) {gs : List Group}
    {ts : List Planned}
    (hconst : ∀ g ∈ gs, ∀ item, g.wanted = some item →
      .placed item g.replicas (room.place shedding item.value.replication g.replicas).1 ∈ ts →
        (room.place shedding item.value.replication g.replicas).2 = room)
    (hsub : ∀ t ∈ Room.placeAll shedding room gs, t ∈ ts) {g : Group} (hg : g ∈ gs)
    {item : Entry Item} (hw : g.wanted = some item) :
    .placed item g.replicas (room.place shedding item.value.replication g.replicas).1 ∈ ts := by
  induction gs with
  | nil => exact absurd hg List.not_mem_nil
  | cons g' gs ih =>
    simp only [Room.placeAll] at hsub
    have hrest := fun g hg => hconst g (List.mem_cons_of_mem _ hg)
    split at hsub
    next hnone =>
      rcases List.mem_cons.1 hg with rfl | hg
      · rw [hnone] at hw
        contradiction
      · exact ih hrest (fun t ht => hsub t (List.mem_cons_of_mem _ ht)) hg
    next item' hw' =>
      have hfirst := hsub _ List.mem_cons_self
      rcases List.mem_cons.1 hg with rfl | hg
      · obtain rfl := Option.some.inj (hw'.symm.trans hw)
        exact hfirst
      · rw [hconst g' List.mem_cons_self item' hw' hfirst] at hsub
        exact ih hrest (fun t ht => hsub t (List.mem_cons_of_mem _ ht)) hg

namespace IsCalm

variable {s : Snapshot} {b : Bounds} {g : Group} {item : Entry Item}

/-- Every item is placed in the room that there is at first. -/
theorem site (h : s.IsCalm b) (hroomy : s.IsRoomy) (hg : g ∈ (Roster.ofSnapshot s).groups)
    (hw : g.wanted = some item) : Site s b g item ⟨(Roster.ofSnapshot s).seats, b.repairs⟩ := by
  have hplanned := mem_placeAll_of_const ⟨(Roster.ofSnapshot s).seats, b.repairs⟩
    (fun g hg item hw ht => Site.room_eq ⟨h, hg, hw, rfl, ht⟩ hroomy) (fun t ht => ht) hg hw
  exact ⟨h, hg, hw, rfl, hplanned⟩

/-- Every item of a calm snapshot with enough room is settled. -/
theorem settled (h : s.IsCalm b) (hroomy : s.IsRoomy) (hg : g ∈ (Roster.ofSnapshot s).groups)
    (hw : g.wanted = some item) : Settled s item.value g.replicas :=
  (h.site hroomy hg hw).settled hroomy

theorem spread (h : s.IsCalm b) (hroomy : s.IsRoomy) (hrepairs : 0 < b.repairs)
    (hg : g ∈ (Roster.ofSnapshot s).groups) (hw : g.wanted = some item) :
    (∀ r ∈ g.replicas, Spread.inZone g.replicas r.zone ≤ 1) ∨
      Spread.hasOpenZone (Roster.ofSnapshot s).seats (Room.holdersOf g.replicas) g.replicas =
        false :=
  (h.site hroomy hg hw).spread hroomy (Nat.ne_of_gt hrepairs)

end IsCalm

end Snapshot

end Allotment
