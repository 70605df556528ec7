import Allotment.Proofs.Cache.Apply
import Allotment.Proofs.Check
import Allotment.Proofs.Store.Chronicle
import Allotment.Proofs.Settle.Share

/-!
# Proposals that can be read

In an orderly snapshot with enough room, whose members are no more than there are slots, everything that a
proposal puts can be read (`IsSettling.isReadable`).  So whoever follows the store sees what the proposal
has led to.
-/

namespace Allotment

namespace Snapshot

/-- An orderly snapshot with enough room, whose members are no more than there are slots. -/
structure IsSettling (s : Snapshot) : Prop where
  orderly : s.IsOrderly
  roomy : s.IsRoomy
  slots : s.members.length ≤ Layout.slotLimit

/-- Whether a decoded snapshot is settling. It is enough to look at the items that are held. -/
def isSettling (s : Snapshot) : Bool :=
  decide <| (∀ a ∈ s.assignments, (s.item? a.value.item).isSome = true) ∧
    (∀ a ∈ s.assignments, (s.member? a.value.holder).isSome = true) ∧
    (∀ id ∈ s.heldItems, ((s.held id).map (·.holder)).Nodup) ∧
    (∀ id ∈ s.heldItems, ((s.held id).map (·.slot)).Perm (List.range (s.held id).length)) ∧
    (∀ e ∈ s.members, e.value.isDraining = false → s.items.length ≤ e.value.limit) ∧
    (∀ i ∈ s.items,
      i.value.replication ≤ (s.members.filter fun e => !e.value.isDraining).length) ∧
    s.members.length ≤ Layout.slotLimit

theorem IsFaithful.isSettling_iff {s : Snapshot} (hs : s.IsFaithful) :
    s.isSettling = true ↔ s.IsSettling := by
  unfold isSettling
  rw [decide_eq_true_eq]
  constructor
  · rintro ⟨hitems, hholders, hdistinct, hdense, hlimit, hreplication, hslots⟩
    refine ⟨⟨hs, hitems, hholders, fun id => ?_, fun id => ?_⟩, ⟨hlimit, hreplication⟩, hslots⟩
    · by_cases hid : id ∈ s.heldItems
      · exact hdistinct id hid
      · rw [held_eq_nil hid]
        exact List.nodup_nil
    · by_cases hid : id ∈ s.heldItems
      · exact hdense id hid
      · rw [held_eq_nil hid]
        exact List.Perm.refl _
  · intro h
    exact ⟨h.orderly.items, h.orderly.holders, fun id _ => h.orderly.distinct id,
      fun id _ => h.orderly.dense id, h.roomy.limit, h.roomy.replication, h.slots⟩

namespace Spot

variable {s : Snapshot} {g : Group} {item : Entry Item} {room : Room} {v : Viewpoint} {repairs : Nat}

theorem replicasOf (h : Spot s g item room) : ReplicasOf s.layout item.value.id g.replicas := by
  obtain ⟨hid, he⟩ := Roster.mem_groups_iff.1 h.group
  rw [(Roster.id_of_wanted h.orderly.faithful h.group h.wanted).2, he]
  exact Roster.replicasOf_group h.orderly.faithful hid

/-- What a share puts stands for an assignment. -/
theorem parse_of_put (h : Spot s g item room) (hslots : s.members.length ≤ Layout.slotLimit)
    (hl : v.layout = s.layout) {k : String} {value : Bytes}
    (hput : .put k value ∈ (v.work repairs (.placed item g.replicas (placement s g item room))).writes) :
    ∃ holder slot consistent, s.layout.parse k = .ok (.assignment item.value.id holder slot) ∧
      value = Assignment.encode consistent := by
  have hput : .put k value ∈ v.placedWrites repairs item g.replicas (placement s g item room) :=
    Viewpoint.writes_placedWork ▸ hput
  have hbound := h.orderly.length_replicas_le h.group
  obtain ⟨consistent, hvalue, hmove | hclaim | hflag⟩ := Viewpoint.of_put_mem_placedWrites hput
  · obtain ⟨m, hm, rfl⟩ := hmove
    have hmem := (Viewpoint.moving_sublist _ _ _ _ _).mem hm
    have hr : m.1 ∈ g.replicas := (List.mem_filter.1 (mem_of_mem_renumbering hmem).1).1
    have hslot : m.2 < Layout.slotLimit := by
      have hlt := lt_of_mem_renumbering hmem
      have hle := List.length_filter_le (fun r => !(v.deleted repairs item
        (placement s g item room)).contains r) g.replicas
      unfold Viewpoint.spared at hlt
      omega
    refine ⟨m.1.holder, m.2, consistent, ?_, hvalue⟩
    rw [hl, h.replicasOf.item_eq _ hr]
    exact (Layout.parse_assignmentKey_eq_ok_iff h.replicasOf.segment (h.replicasOf.named hr).holder).2
      ⟨rfl, hslot⟩
  · obtain ⟨hclaims, rfl⟩ := hclaim
    obtain ⟨hopen, hnot, -⟩ := h.of_claims hclaims
    obtain ⟨e, he, -, hself⟩ := mem_openMembers_iff.1 hopen
    have hvalid := (parse_of_mem_members h.orderly.faithful he).2
    have hlt := h.orderly.length_replicas_lt h.group hopen hnot
    refine ⟨v.self, g.replicas.length, consistent, ?_, hvalue⟩
    show s.layout.parse (v.layout.assignmentKey _ _ _) = _
    rw [hl]
    exact (Layout.parse_assignmentKey_eq_ok_iff h.replicasOf.segment (hself ▸ hvalid)).2 ⟨rfl, by omega⟩
  · obtain ⟨r, hr, rfl⟩ := hflag
    have hresting := Viewpoint.mem_resting_of_flagging h.fits h.nodup hr
    have hmem : r ∈ g.replicas := (List.mem_filter.1 (List.mem_filter.1 hresting).1).1
    exact ⟨_, _, consistent, h.replicasOf.parse r hmem, hvalue⟩

end Spot

namespace IsSettling

variable {s : Snapshot} {b : Bounds}

theorem exists_spot (h : s.IsSettling) {t : Planned} (ht : t ∈ (Roster.ofSnapshot s).planned b) :
    ∃ g item room, Spot s g item room ∧ t = .placed item g.replicas (placement s g item room) := by
  obtain ⟨g, hg, item, room, hw, hserves, rfl⟩ := h.orderly.serves_of_mem_planned h.roomy.limit ht
  exact ⟨g, item, room, ⟨h.orderly, h.roomy.limit, hg, hw, hserves⟩, rfl⟩

variable {m : MemberId} {p : Proposal}

/-- Everything that a proposal puts can be read. -/
theorem isReadable (h : s.IsSettling) (hp : Proposal.ofSnapshot s m b = some p) {revision : Int}
    {c : Contents} {e : Change} (he : e ∈ Write.changes revision p.transaction.writes c) :
    e.IsReadable s.layout := by
  rintro stored rfl
  obtain ⟨entry, ts, hm⟩ := Proposal.made_of_ofSnapshot hp
  have hput := Write.mem_of_put_mem_changes he
  rw [hm.writes] at hput
  obtain ⟨t, ht, hput⟩ := List.mem_flatMap.1 hput
  obtain ⟨g, item, room, hspot, htask⟩ := h.exists_spot (hm.mem_planned ht)
  rw [htask] at hput
  obtain ⟨holder, slot, consistent, hparse, hvalue⟩ := hspot.parse_of_put h.slots rfl hput
  exact Resource.exists_decode_of_parse hparse hvalue

end IsSettling

end Snapshot

end Allotment
