import Allotment.Proofs.Quiet.Settled
import Allotment.Proofs.Settle.Backlog
import Allotment.Proofs.Settle.Orderly

/-!
# Placing an item of an orderly snapshot

Let an item of an orderly snapshot, whose members could hold all items unless they are draining, be placed
where each of these members has a place for it or holds it (`Snapshot.Spot`).  Then nothing is broken, the
replicas on draining members leave (`Spot.mem_leaving`), and another replica leaves only if it moves out of a
zone with several while some zone is missing or there are more replicas than wanted (`Spot.of_zoneMove?`,
`Spot.missing_pos_of_zoneMove?`).
-/

namespace Allotment

/-- The stake of a replica. -/
def Replica.stake (r : Replica) : Stake :=
  r.assignment.stake

namespace Snapshot

/-- What an item asks of the members. -/
def demand (s : Snapshot) (item : Item) : Demand :=
  ⟨s.openMembers, item.replication, s.members.length⟩

/-- The replicas on members that are not draining. -/
def serving (s : Snapshot) (rs : List Replica) : List Replica :=
  rs.filter fun r => decide (r.holder ∈ s.openMembers)

/-- An item of an orderly snapshot with limits for all items that is placed in a room that serves it. -/
structure Spot (s : Snapshot) (g : Group) (item : Entry Item) (room : Room) : Prop where
  orderly : s.IsOrderly
  ample : s.IsAmple
  group : g ∈ (Roster.ofSnapshot s).groups
  wanted : g.wanted = some item
  serves : Room.Serves s g room

variable {s : Snapshot} {rs : List Replica} {item : Item}

theorem mem_serving_iff {r : Replica} : r ∈ s.serving rs ↔ r ∈ rs ∧ r.holder ∈ s.openMembers := by
  simp [serving]

theorem serving_stakes (s : Snapshot) (item : Item) (rs : List Replica) :
    (s.demand item).serving (rs.map Replica.stake) = (s.serving rs).map Replica.stake := by
  unfold Demand.serving serving
  rw [List.filter_map]
  rfl

theorem mem_reach_iff {z : String} :
    z ∈ (s.demand item).reach (rs.map Replica.stake) ↔ ∃ r ∈ s.serving rs, r.zone = z := by
  unfold Demand.reach
  rw [serving_stakes, List.map_map, List.mem_toFinset, List.mem_map]
  rfl

namespace Spot

variable {g : Group} {item : Entry Item} {room : Room}

/-! ### The placement -/

theorem nodup (h : Spot s g item room) : g.replicas.Nodup :=
  (h.orderly.nodup_holders h.group).of_map _

theorem nodup_serving (h : Spot s g item room) : (s.serving g.replicas).Nodup :=
  h.nodup.filter _

theorem live_eq (h : Spot s g item room) : (placement s g item room).live = g.replicas :=
  h.orderly.intact.liveOf_eq h.group

theorem broken_eq (h : Spot s g item room) : (placement s g item room).broken = [] :=
  h.orderly.intact.broken_eq_nil g h.group

theorem nodup_ids (h : Spot s g item room) : (room.seats.map (·.id)).Nodup := by
  rw [h.serves.ids, ← Roster.ids_seats]
  exact Roster.nodup_ids_seats h.orderly.faithful

theorem fits (h : Spot s g item room) : (placement s g item room).Fits g.replicas :=
  Room.fits_place _ _ _ h.nodup_ids

/-- The replica that moves to another zone, if one does. -/
def zoneMove? (s : Snapshot) (g : Group) (item : Entry Item) (room : Room) : Option Replica :=
  room.zoneMove? (Room.holdersOf g.replicas) item.value.replication (s.serving g.replicas)

theorem unshed_eq (h : Spot s g item room) :
    Room.unshed (Roster.ofSnapshot s).shedding g.replicas = s.serving g.replicas := by
  unfold Room.unshed serving
  rw [h.orderly.intact.liveOf_eq h.group]
  refine List.filter_congr fun r hr => ?_
  have hshed := h.orderly.mem_shedding_iff h.ample h.group hr
  rw [Bool.eq_iff_iff]
  simp [hshed]

theorem mem_leaving (h : Spot s g item room) {r : Replica}
    (hr : r ∈ (placement s g item room).leaving) :
    r.holder ∉ s.openMembers ∨ zoneMove? s g item room = some r := by
  have hleaving : r ∈ (Room.place _ _ _ _).1.leaving := hr
  rw [Room.leaving_place, h.unshed_eq, h.orderly.intact.liveOf_eq h.group] at hleaving
  rcases List.mem_append.1 hleaving with hshed | hmove
  · obtain ⟨hmem, hkey⟩ := List.mem_filter.1 hshed
    exact .inl ((h.orderly.mem_shedding_iff h.ample h.group hmem).1 (by simpa using hkey))
  · exact .inr (by simpa [zoneMove?] using hmove)

theorem staying_eq (h : Spot s g item room) : (placement s g item room).staying =
    (s.serving g.replicas).filter fun r => !(zoneMove? s g item room).toList.contains r := by
  have hstaying : (placement s g item room).staying = (Room.place _ _ _ _).1.staying := rfl
  rw [hstaying, Room.staying_place, h.unshed_eq]
  rfl

theorem staying_of_zoneMove?_eq_none (h : Spot s g item room) (hmove : zoneMove? s g item room = none) :
    (placement s g item room).staying = s.serving g.replicas := by
  rw [h.staying_eq, hmove]
  simp

theorem staying_of_zoneMove?_eq_some (h : Spot s g item room) {r : Replica}
    (hmove : zoneMove? s g item room = some r) :
    (placement s g item room).staying = (s.serving g.replicas).erase r := by
  rw [h.staying_eq, hmove, h.nodup_serving.erase_eq_filter]
  refine List.filter_congr fun q _ => ?_
  rw [Bool.eq_iff_iff]
  simp

theorem nodup_staying (h : Spot s g item room) : (placement s g item room).staying.Nodup := by
  rw [h.staying_eq]
  exact h.nodup_serving.filter _

theorem mem_serving_of_staying (h : Spot s g item room) {r : Replica}
    (hr : r ∈ (placement s g item room).staying) : r ∈ s.serving g.replicas := by
  rw [h.staying_eq] at hr
  exact (List.mem_filter.1 hr).1

theorem length_staying_le (h : Spot s g item room) :
    (placement s g item room).staying.length ≤ (s.serving g.replicas).length := by
  rw [h.staying_eq]
  exact List.length_filter_le _ _

/-- Whoever is not draining and holds no replica of the item has a seat with a place for it. -/
theorem exists_seat (h : Spot s g item room) {m : MemberId} (hm : m ∈ s.openMembers)
    (hnot : m ∉ Room.holdersOf g.replicas) : ∃ seat ∈ room.seats, seat.id = m ∧ 0 < seat.spare :=
  Spread.exists_seat_of_spareOf_pos ((h.serves.spare m hnot).2 hm)

theorem mem_openMembers_of_seat (h : Spot s g item room) {seat : Seat} (hseat : seat ∈ room.seats)
    (hspare : 0 < seat.spare) (hnot : seat.id ∉ Room.holdersOf g.replicas) :
    seat.id ∈ s.openMembers := by
  rw [← h.serves.spare _ hnot, Spread.spareOf_of_mem h.nodup_ids hseat]
  exact hspare

/-! ### A move to another zone -/

/-- A replica moves only out of a zone with several, if enough of them remain. -/
theorem of_zoneMove? (h : Spot s g item room) {r : Replica}
    (hmove : zoneMove? s g item room = some r) :
    r ∈ s.serving g.replicas ∧ item.value.replication ≤ (s.serving g.replicas).length ∧
      (∃ q ∈ s.serving g.replicas, q ≠ r ∧ q.zone = r.zone) ∧
      ∃ m ∈ s.openMembers, m.zone ∉ (s.demand item.value).reach (g.replicas.map Replica.stake) := by
  unfold zoneMove? Room.zoneMove? at hmove
  split at hmove
  next => exact nomatch hmove
  next =>
    obtain ⟨hr, hlength, hopen⟩ := Spread.zoneMove?_eq_some hmove
    obtain ⟨seat, hseat, hspare, hnot, hzone⟩ := Spread.hasOpenZone_iff.1 hopen
    refine ⟨hr, hlength, Spread.exists_ne_of_two_le_inZone h.nodup_serving
      (Spread.two_le_inZone_of_zoneMove? hmove), seat.id, h.mem_openMembers_of_seat hseat hspare hnot, ?_⟩
    rw [mem_reach_iff]
    rintro ⟨q, hq, he⟩
    exact hzone q hq he

/-- All but one replica stay while one moves. -/
theorem length_staying_of_zoneMove? (h : Spot s g item room) {r : Replica}
    (hmove : zoneMove? s g item room = some r) :
    (s.serving g.replicas).length = (placement s g item room).staying.length + 1 := by
  have hr := (h.of_zoneMove? hmove).1
  have hpos := List.length_pos_of_mem hr
  rw [h.staying_of_zoneMove?_eq_some hmove, List.length_erase_of_mem hr]
  omega

/-- While a replica moves, a zone is missing, or there are more replicas than wanted. -/
theorem missing_pos_of_zoneMove? (h : Spot s g item room) {r : Replica}
    (hmove : zoneMove? s g item room = some r) :
    0 < (s.demand item.value).missing (g.replicas.map Replica.stake) ∨
      item.value.replication < (s.serving g.replicas).length := by
  obtain ⟨hr, hlength, ⟨q, hq, hne, hz⟩, m, hm, hzone⟩ := h.of_zoneMove? hmove
  rcases Nat.lt_or_eq_of_le hlength with hlt | heq
  · exact .inr hlt
  refine .inl (Demand.missing_pos ?_ hm hzone)
  -- the zone of the moving replica is reached without it
  have hreach : (s.demand item.value).reach (g.replicas.map Replica.stake) ⊆
      (((s.serving g.replicas).erase r).map (·.zone)).toFinset := by
    intro z hz'
    obtain ⟨p, hp, rfl⟩ := mem_reach_iff.1 hz'
    rw [List.mem_toFinset, List.mem_map]
    by_cases hpr : p = r
    · exact ⟨q, (List.mem_erase_of_ne hne).2 hq, hpr ▸ hz⟩
    · exact ⟨p, (List.mem_erase_of_ne hpr).2 hp, rfl⟩
  have hcard := (Finset.card_le_card hreach).trans (List.toFinset_card_le _)
  rw [List.length_map, List.length_erase_of_mem hr] at hcard
  have hpos := List.length_pos_of_mem hr
  show _ < item.value.replication
  omega

/-- A move to another zone loses no zone. -/
theorem mem_reach_iff_staying (h : Spot s g item room) {z : String} :
    z ∈ (s.demand item.value).reach (g.replicas.map Replica.stake) ↔
      z ∈ (placement s g item room).staying.map (·.zone) := by
  rw [mem_reach_iff, List.mem_map]
  constructor
  · rintro ⟨r, hr, rfl⟩
    rw [h.staying_eq]
    by_cases hmove : zoneMove? s g item room = some r
    · obtain ⟨-, -, ⟨q, hq, hne, hz⟩, -⟩ := h.of_zoneMove? hmove
      exact ⟨q, List.mem_filter.2 ⟨hq, by simp [hmove, hne]⟩, hz⟩
    · have hkeep : r ∉ (zoneMove? s g item room).toList := by simpa using hmove
      exact ⟨r, List.mem_filter.2 ⟨hr, by simpa using hkeep⟩, rfl⟩
  · rintro ⟨r, hr, rfl⟩
    exact ⟨r, h.mem_serving_of_staying hr, rfl⟩

end Spot

end Snapshot

end Allotment
