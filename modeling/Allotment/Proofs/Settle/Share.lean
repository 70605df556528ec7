import Allotment.Proofs.Plan.Outcome
import Allotment.Proofs.Settle.Spot

/-!
# Shares in an orderly snapshot

Where nothing is to repair and nothing to renumber, a share that writes anything does one of three things:
the member releases its replica, claims one, or makes its own consistent (`Spot.work_cases`).  Each of them
shrinks the backlog of the item (`Spot.backlog_lt`).
-/

namespace Allotment

namespace Viewpoint

variable {v : Viewpoint} {repairs : Nat} {item : Entry Item} {rs : List Replica} {p : Placement}

/-- A replica keeps its stake unless its holder makes it consistent. -/
theorem stake_settled (h : v.pending item p = none) (r : Replica) :
    (v.settled repairs item rs p r).stake = r.stake := by
  have hflagging : v.flagging repairs item rs p = none := by
    unfold flagging
    rw [h]
    split <;> rfl
  unfold settled
  rw [hflagging, h]
  split
  · simp [moved, Replica.stake, Assignment.stake]
  · rfl

end Viewpoint

namespace Snapshot

namespace Spot

variable {s : Snapshot} {g : Group} {item : Entry Item} {room : Room} {v : Viewpoint} {repairs : Nat}

/-! ### What a share does -/

theorem deleted_eq_released (h : Spot s g item room) (v : Viewpoint) (repairs : Nat) :
    v.deleted repairs item (placement s g item room) =
      v.released item.value.replication (placement s g item room) := by
  have hrepaired : v.repaired repairs (placement s g item room) = [] := by
    unfold Viewpoint.repaired
    rw [h.broken_eq]
    simp
  unfold Viewpoint.deleted
  rw [hrepaired, List.append_nil]

theorem moving_eq_nil (h : Spot s g item room)
    (hd : v.deleted repairs item (placement s g item room) = []) :
    v.moving repairs item g.replicas (placement s g item room) = [] :=
  Viewpoint.moving_eq_nil_of_dense hd (h.orderly.slots_perm h.group)

/-- A share that writes anything releases the own replica, claims one or makes the own one consistent. -/
theorem work_cases (h : Spot s g item room)
    (hw : (v.work repairs (.placed item g.replicas (placement s g item room))).writes ≠ []) :
    (∃ r ∈ v.released item.value.replication (placement s g item room),
      v.deleted repairs item (placement s g item room) = [r]) ∨
    v.deleted repairs item (placement s g item room) = [] ∧
      (v.claims repairs item g.replicas (placement s g item room) = true ∨
        ∃ r, v.flagging repairs item g.replicas (placement s g item room) = some r) := by
  cases hown : v.deleted repairs item (placement s g item room) with
  | cons r ds =>
    left
    rw [h.deleted_eq_released] at hown
    have hone : (v.released item.value.replication (placement s g item room)).length ≤ 1 := by
      refine Nat.le_trans (List.length_filter_le _ _) ?_
      cases v.own? (placement s g item room) <;> simp
    rw [hown, List.length_cons] at hone
    obtain rfl : ds = [] := List.eq_nil_of_length_eq_zero (by omega)
    exact ⟨r, hown ▸ List.mem_cons_self, rfl⟩
  | nil =>
    refine .inr ⟨rfl, ?_⟩
    have hmoving := h.moving_eq_nil hown
    have hw : v.placedWrites repairs item g.replicas (placement s g item room) ≠ [] :=
      fun hnil => hw (Viewpoint.writes_placedWork.trans hnil)
    unfold Viewpoint.placedWrites at hw
    rw [hown, hmoving] at hw
    cases hclaims : v.claims repairs item g.replicas (placement s g item room) with
    | true => exact .inl rfl
    | false =>
      cases hflagging : v.flagging repairs item g.replicas (placement s g item room) with
      | none => simp [hclaims, hflagging] at hw
      | some r => exact .inr ⟨r, rfl⟩

/-! ### Releases -/

theorem length_serving_stakes :
    ((s.demand item.value).serving (g.replicas.map Replica.stake)).length =
      (s.serving g.replicas).length := by
  rw [serving_stakes, List.length_map]

/-- A zone with another replica is reached without the one that is released. -/
theorem mem_reach_erase {r q : Replica} (hq : q ∈ s.serving g.replicas) (hne : q ≠ r)
    (hz : q.zone = r.zone) :
    r.zone ∈ (s.demand item.value).reach ((g.replicas.erase r).map Replica.stake) := by
  obtain ⟨hqmem, hqopen⟩ := mem_serving_iff.1 hq
  exact mem_reach_iff.2 ⟨q, mem_serving_iff.2 ⟨(List.mem_erase_of_ne hne).2 hqmem, hqopen⟩, hz⟩

/-- Replicas in excess are more than wanted, and each of them shares its zone, or there are enough zones. -/
theorem of_mem_excess (h : Spot s g item room) {r : Replica}
    (hr : r ∈ (placement s g item room).excess) :
    item.value.replication < (s.serving g.replicas).length ∧
      ((∃ q ∈ s.serving g.replicas, q ≠ r ∧ q.zone = r.zone) ∨
        item.value.replication <
          ((s.demand item.value).reach (g.replicas.map Replica.stake)).card) := by
  have hexcess : r ∈ Spread.excess ((placement s g item room).staying.length -
      item.value.replication) (placement s g item room).staying := by
    have he : (placement s g item room).excess = _ := Room.excess_place _ _ _ _
    rwa [he] at hr
  have hmore : item.value.replication < (placement s g item room).staying.length := by
    refine Nat.lt_of_not_le fun hle => ?_
    rw [Nat.sub_eq_zero_of_le hle] at hexcess
    exact nomatch hexcess
  refine ⟨Nat.lt_of_lt_of_le hmore h.length_staying_le, ?_⟩
  rcases Spread.zone_of_mem_excess h.nodup_staying hexcess with ⟨q, hq, hne, hz⟩ | ⟨qs, hqs, hzones, hlt⟩
  · exact .inl ⟨q, h.mem_serving_of_staying hq, hne, hz⟩
  · right
    have hsub : (qs.map (·.zone)).toFinset ⊆
        (s.demand item.value).reach (g.replicas.map Replica.stake) := by
      intro z hz
      obtain ⟨q, hq, rfl⟩ := List.mem_map.1 (List.mem_toFinset.1 hz)
      exact mem_reach_iff.2 ⟨q, h.mem_serving_of_staying (hqs q hq), rfl⟩
    have hcard := Finset.card_le_card hsub
    rw [List.toFinset_card_of_nodup hzones, List.length_map] at hcard
    omega

/-- A replica that is released is not needed, or its holder is draining. -/
theorem backlog_lt_of_released (h : Spot s g item room) {r : Replica}
    (hr : r ∈ v.released item.value.replication (placement s g item room)) :
    (s.demand item.value).backlog ((g.replicas.erase r).map Replica.stake) <
      (s.demand item.value).backlog (g.replicas.map Replica.stake) := by
  obtain ⟨hown, hgoes, -⟩ := Viewpoint.mem_released_iff.1 hr
  have hmem : r ∈ g.replicas := h.live_eq ▸ (Viewpoint.of_own?_eq_some hown).1
  have hperm : (g.replicas.map Replica.stake).Perm
      (r.stake :: (g.replicas.erase r).map Replica.stake) := (List.perm_cons_erase hmem).map _
  have hlength : ((g.replicas.erase r).map Replica.stake).length ≤ s.members.length := by
    rw [List.length_map]
    exact Nat.le_trans List.length_erase_le (h.orderly.length_replicas_le h.group)
  by_cases hopen : r.holder ∈ s.openMembers
  case neg =>
    rw [Demand.backlog_perm _ hperm]
    exact Demand.backlog_lt_of_retire hopen hlength
  case pos =>
    rcases hgoes with hleaving | hexcess
    · have hmove := (h.mem_leaving hleaving).resolve_left fun hdraining => hdraining hopen
      obtain ⟨-, -, ⟨q, hq, hne, hz⟩, -⟩ := h.of_zoneMove? hmove
      refine Demand.backlog_lt_of_release hperm hopen ?_ (.inl (mem_reach_erase hq hne hz)) hlength
      rw [length_serving_stakes]
      exact h.missing_pos_of_zoneMove? hmove
    · obtain ⟨hmore, hzone⟩ := h.of_mem_excess hexcess
      refine Demand.backlog_lt_of_release hperm hopen (.inr ?_) (hzone.imp_left ?_) hlength
      · rw [length_serving_stakes]
        exact hmore
      · rintro ⟨q, hq, hne, hz⟩
        exact mem_reach_erase hq hne hz

/-! ### Claims -/

/-- Whoever claims a replica is not draining and holds none. -/
theorem of_claims (h : Spot s g item room)
    (hclaims : v.claims repairs item g.replicas (placement s g item room) = true) :
    v.self ∈ s.openMembers ∧ v.self ∉ Room.holdersOf g.replicas ∧
      (placement s g item room).staying.length < item.value.replication ∧
      ∀ m ∈ s.openMembers, m ∉ Room.holdersOf g.replicas →
        ((placement s g item room).staying.map (·.zone)).count v.self.zone ≤
          ((placement s g item room).staying.map (·.zone)).count m.zone := by
  have hhead := (Viewpoint.claims_eq_true_iff.1 hclaims).2.2.2
  have hreceivers : (placement s g item room).receivers = (Spread.receivers
      (item.value.replication - (placement s g item room).staying.length)
      ((placement s g item room).staying.map (·.zone)) (Room.holdersOf g.replicas) room.seats).1 :=
    Room.receivers_place _ _ _ _
  rw [hreceivers] at hhead
  obtain ⟨hneed, hnot, ⟨seat, hseat, hid, hspare⟩, hleast⟩ := Spread.of_head?_receivers hhead
  refine ⟨hid ▸ h.mem_openMembers_of_seat hseat hspare (hid ▸ hnot), hnot, by omega, ?_⟩
  intro m hm hout
  obtain ⟨other, hother, rfl, hpos⟩ := h.exists_seat hm hout
  exact hleast other hother hpos hout

/-- A replica is claimed only if it is wanted. -/
theorem backlog_lt_of_claims (h : Spot s g item room) (hroomy : s.IsRoomy)
    (hclaims : v.claims repairs item g.replicas (placement s g item room) = true) :
    (s.demand item.value).backlog (⟨v.self, false⟩ :: g.replicas.map Replica.stake) <
      (s.demand item.value).backlog (g.replicas.map Replica.stake) := by
  obtain ⟨hopen, hnot, hneed, hleast⟩ := h.of_claims hclaims
  refine Demand.backlog_lt_of_claim hopen ?_ (fun hmissing => ?_) ?_ ?_
  · rw [length_serving_stakes]
    cases hmove : zoneMove? s g item room with
    | none =>
      rw [h.staying_of_zoneMove?_eq_none hmove] at hneed
      exact .inr hneed
    | some r =>
      have hlength := h.length_staying_of_zoneMove? hmove
      exact .inl ((h.missing_pos_of_zoneMove? hmove).resolve_right fun hmore => by omega)
  · -- some member in a missing zone has a place for the item, so that the receiver is in one, too
    obtain ⟨m, hm, hz⟩ := Demand.exists_zone_of_missing hmissing
    have hout : m ∉ Room.holdersOf g.replicas := by
      intro hholds
      obtain ⟨r, hr, rfl⟩ := Room.exists_of_mem_holdersOf hholds
      exact hz (mem_reach_iff.2 ⟨r, mem_serving_iff.2 ⟨hr, hm⟩, rfl⟩)
    have hle := hleast m hm hout
    rw [List.count_eq_zero.2 fun hmem => hz (h.mem_reach_iff_staying.2 hmem), Nat.le_zero] at hle
    exact fun hreach => List.count_eq_zero.1 hle (h.mem_reach_iff_staying.1 hreach)
  · obtain ⟨hitem, -⟩ := Roster.id_of_wanted h.orderly.faithful h.group h.wanted
    exact Nat.le_trans (hroomy.replication item hitem) (List.length_filter_le _ _)
  · rw [List.length_map]
    exact h.orderly.length_replicas_lt h.group hopen hnot

/-! ### Every share -/

theorem stakes_of_released (h : Spot s g item room) {r : Replica}
    (hr : r ∈ v.released item.value.replication (placement s g item room))
    (hd : v.deleted repairs item (placement s g item room) = [r]) :
    (v.placedOutcome repairs item g.replicas (placement s g item room)).map Replica.stake =
      (g.replicas.erase r).map Replica.stake := by
  have hclaims : ¬ v.claims repairs item g.replicas (placement s g item room) = true := by
    intro hclaims
    rw [(Viewpoint.claims_eq_true_iff.1 hclaims).1] at hd
    exact nomatch hd
  have hspared : v.spared repairs item g.replicas (placement s g item room) = g.replicas.erase r := by
    unfold Viewpoint.spared
    rw [hd, h.nodup.erase_eq_filter]
    refine List.filter_congr fun q _ => ?_
    rw [Bool.eq_iff_iff]
    simp
  unfold Viewpoint.placedOutcome
  rw [if_neg hclaims, List.nil_append, List.map_map, hspared]
  exact List.map_congr_left fun q _ =>
    Viewpoint.stake_settled (Viewpoint.pending_eq_none_of_released hr) q

theorem stakes_of_claims (h : Spot s g item room)
    (hclaims : v.claims repairs item g.replicas (placement s g item room) = true) :
    (v.placedOutcome repairs item g.replicas (placement s g item room)).map Replica.stake =
      ⟨v.self, false⟩ :: g.replicas.map Replica.stake := by
  unfold Viewpoint.placedOutcome
  rw [if_pos hclaims, List.map_append, List.map_map,
    Viewpoint.spared_of_deleted_eq_nil (Viewpoint.claims_eq_true_iff.1 hclaims).1]
  refine congrArg (_ :: ·) (List.map_congr_left fun q _ => ?_)
  exact Viewpoint.stake_settled (Viewpoint.pending_eq_none_of_claims h.fits hclaims) q

theorem stakes_of_flagging (h : Spot s g item room) {r : Replica}
    (hd : v.deleted repairs item (placement s g item room) = [])
    (hclaims : v.claims repairs item g.replicas (placement s g item room) = false)
    (hflagging : v.flagging repairs item g.replicas (placement s g item room) = some r) :
    ∃ rest, (g.replicas.map Replica.stake).Perm (⟨r.holder, false⟩ :: rest) ∧
      ((v.placedOutcome repairs item g.replicas (placement s g item room)).map Replica.stake).Perm
        (⟨r.holder, true⟩ :: rest) := by
  have hpending := (Viewpoint.of_flagging_eq_some hflagging).1
  have hmem : r ∈ g.replicas :=
    h.live_eq ▸ (Viewpoint.of_own?_eq_some (Viewpoint.of_pending_eq_some hpending).1).1
  have hunflagged : r.assignment.consistent = false := Viewpoint.consistent_of_pending hpending
  have hsettled : ∀ q, v.settled repairs item g.replicas (placement s g item room) q =
      if q = r then r.flagged else q := by
    intro q
    unfold Viewpoint.settled
    rw [h.moving_eq_nil hd, hflagging]
    by_cases hq : q = r
    · simp [hq]
    · simp [hq, Ne.symm hq]
  refine ⟨(g.replicas.erase r).map Replica.stake, ?_, ?_⟩
  · refine ((List.perm_cons_erase hmem).map Replica.stake).trans (List.Perm.of_eq ?_)
    rw [List.map_cons]
    congr 1
    simp [Replica.stake, Assignment.stake, hunflagged, Replica.holder]
  · unfold Viewpoint.placedOutcome
    rw [if_neg (by simp [hclaims]), List.nil_append, List.map_map,
      Viewpoint.spared_of_deleted_eq_nil hd]
    refine ((List.perm_cons_erase hmem).map _).trans (List.Perm.of_eq ?_)
    rw [List.map_cons, Function.comp_apply, hsettled, if_pos rfl]
    refine congrArg (_ :: ·) (List.map_congr_left fun q hq => ?_)
    rw [Function.comp_apply, hsettled, if_neg fun he => ?_]
    exact (h.nodup.mem_erase_iff.1 hq).1 he

/-- Whatever a member writes for an item that enough members can hold shrinks the backlog of the item. -/
theorem backlog_lt (h : Spot s g item room) (hroomy : s.IsRoomy)
    (hw : (v.work repairs (.placed item g.replicas (placement s g item room))).writes ≠ []) :
    (s.demand item.value).backlog
        ((v.placedOutcome repairs item g.replicas (placement s g item room)).map Replica.stake) <
      (s.demand item.value).backlog (g.replicas.map Replica.stake) := by
  rcases h.work_cases hw with ⟨r, hr, hd⟩ | ⟨hd, hrest⟩
  · rw [h.stakes_of_released hr hd]
    exact h.backlog_lt_of_released hr
  cases hclaims : v.claims repairs item g.replicas (placement s g item room) with
  | true =>
    rw [h.stakes_of_claims hclaims]
    exact h.backlog_lt_of_claims hroomy hclaims
  | false =>
    obtain ⟨r, hflagging⟩ := hrest.resolve_left (by simp [hclaims])
    obtain ⟨rest, hbefore, hafter⟩ := h.stakes_of_flagging hd hclaims hflagging
    rw [Demand.backlog_perm _ hbefore, Demand.backlog_perm _ hafter]
    exact Demand.backlog_lt_of_flag r.holder

/-- Nobody holds the item twice after a share. -/
theorem nodup_holders_placedOutcome (h : Spot s g item room) (v : Viewpoint) (repairs : Nat) :
    ((v.placedOutcome repairs item g.replicas (placement s g item room)).map (·.holder)).Nodup := by
  refine Viewpoint.nodup_holders_placedOutcome (h.orderly.nodup_holders h.group) fun hclaims r hr he => ?_
  exact (h.of_claims hclaims).2.1 ((h.orderly.mem_holdersOf_iff h.group).2 ⟨r, hr, he⟩)

/-- Every holder after a share is a member. -/
theorem exists_member_of_mem_placedOutcome (h : Spot s g item room) {r : Replica}
    (hr : r ∈ v.placedOutcome repairs item g.replicas (placement s g item room)) :
    ∃ e ∈ s.members, e.value.id = r.holder := by
  have hholder := List.mem_map_of_mem (f := fun r : Replica => r.holder) hr
  rw [Viewpoint.map_holder_placedOutcome] at hholder
  rcases List.mem_append.1 hholder with hself | hspared
  · split at hself
    next hclaims =>
      obtain ⟨e, he, -, hid⟩ := mem_openMembers_iff.1 (h.of_claims hclaims).1
      exact ⟨e, he, hid.trans (List.mem_singleton.1 hself).symm⟩
    next => exact nomatch hself
  · obtain ⟨q, hq, he⟩ := List.mem_map.1 hspared
    rw [← he]
    exact h.orderly.exists_member h.group (List.mem_filter.1 hq).1

theorem slots_placedOutcome_perm (h : Spot s g item room) (v : Viewpoint) (repairs : Nat) :
    ((v.placedOutcome repairs item g.replicas (placement s g item room)).map (·.slot)).Perm
      (List.range (v.placedOutcome repairs item g.replicas (placement s g item room)).length) :=
  Viewpoint.dense_placedOutcome h.nodup (h.orderly.slots_perm h.group)

/-- No more than all members hold the item after a share. -/
theorem length_placedOutcome_le (h : Spot s g item room) (v : Viewpoint) (repairs : Nat) :
    (v.placedOutcome repairs item g.replicas (placement s g item room)).length ≤ s.members.length := by
  rw [← List.length_map (f := fun r : Replica => r.holder)]
  refine IsOrderly.length_le_members (h.nodup_holders_placedOutcome v repairs) fun m hm => ?_
  obtain ⟨q, hq, rfl⟩ := List.mem_map.1 hm
  exact h.exists_member_of_mem_placedOutcome hq

end Spot

end Snapshot

end Allotment
