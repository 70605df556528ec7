import Allotment.Proofs.Plan.Proposal
import Allotment.Proofs.Settle.Shift

/-!
# Items that fill up

A snapshot is filling if nobody is draining, no item has more replicas than it wants, and the zones of an
item are apart or are all that have a member (`Snapshot.IsFilling`).  In such a snapshot no replica is to
go: none is to move to another zone, since none could reach a new one, and none is in excess
(`IsFilling.zoneMove?_eq_none`, `IsFilling.deleted_eq_nil`).  So proposals only add and flag
(`IsFilling.churn_eq_zero`).  The member that is to take the next replica is in a zone with as few of them
as can be, so that the item still fills up afterwards (`IsFilling.isSpread_outcome`), even if the contents
have changed since the plan was made (`IsFilling.exists_after`).
-/

namespace Allotment

/-- How many replicas are taken away, renumbered or repaired. -/
def Tally.churn (t : Tally) : Nat :=
  t.removed + t.packed + t.repaired

theorem Tally.churn_sum (ts : List Tally) : ts.sum.churn = (ts.map (·.churn)).sum := by
  refine count_sum _ rfl (fun a b => ?_) ts
  show (add a b).churn = a.churn + b.churn
  simp only [churn, add]
  omega

namespace Snapshot

/-- The zones are apart, or every zone that has a member is among them. -/
def IsSpread (s : Snapshot) (zones : List String) : Prop :=
  zones.Nodup ∨ ∀ e ∈ s.members, e.value.id.zone ∈ zones

/-- An orderly snapshot in which nobody is draining, everybody could hold all items, no item has more
replicas than it wants, and the replicas of every item are spread over the zones. -/
structure IsFilling (s : Snapshot) : Prop extends IsOrderly s where
  undrained : ∀ e ∈ s.members, e.value.isDraining = false
  ample : s.IsAmple
  slots : ∀ i ∈ s.items, i.value.replication ≤ Layout.slotLimit
  within : ∀ i ∈ s.items, (s.held i.value.id).length ≤ i.value.replication
  spread : ∀ i ∈ s.items, s.IsSpread ((s.held i.value.id).map (·.holder.zone))

variable {s : Snapshot}

theorem IsSpread.perm {zones zones' : List String} (h : s.IsSpread zones) (hp : zones'.Perm zones) :
    s.IsSpread zones' :=
  h.imp hp.nodup_iff.2 fun hall e he => hp.mem_iff.2 (hall e he)

/-- One more zone is all right if it is a new one, or there is no new one. -/
theorem IsSpread.cons {zone : String} {zones : List String} (h : s.IsSpread zones)
    (hnew : zone ∈ zones → ∀ e ∈ s.members, e.value.id.zone ∈ zones) : s.IsSpread (zone :: zones) := by
  by_cases hmem : zone ∈ zones
  · exact .inr fun e he => List.mem_cons_of_mem _ (hnew hmem e he)
  · exact h.imp (fun hnodup => List.nodup_cons.2 ⟨hmem, hnodup⟩)
      fun hall e he => List.mem_cons_of_mem _ (hall e he)

namespace IsFilling

variable {g : Group} {item : Entry Item} {room : Room} {v : Viewpoint} {repairs : Nat}

/-! ### Placing an item -/

theorem mem_openMembers (h : s.IsFilling) {e : Entry Member} (he : e ∈ s.members) :
    e.value.id ∈ s.openMembers :=
  (mem_openMembers_of_mem h.faithful he).2 (h.undrained e he)

theorem serving_eq (h : s.IsFilling) (hg : g ∈ (Roster.ofSnapshot s).groups) :
    s.serving g.replicas = g.replicas := by
  refine List.filter_eq_self.2 fun r hr => decide_eq_true ?_
  obtain ⟨e, he, hid⟩ := h.exists_member hg hr
  exact hid ▸ h.mem_openMembers he

theorem length_replicas_le_wanted (h : s.IsFilling) (hspot : Spot s g item room) :
    g.replicas.length ≤ item.value.replication := by
  obtain ⟨hitem, hid⟩ := Roster.id_of_wanted h.faithful hspot.group hspot.wanted
  have hlength := (IsOrderly.group_perm hspot.group).length_eq
  rw [List.length_map, ← hid] at hlength
  exact Nat.le_trans (Nat.le_of_eq hlength) (h.within item hitem)

theorem isSpread_replicas (h : s.IsFilling) (hspot : Spot s g item room) :
    s.IsSpread (g.replicas.map (·.zone)) := by
  obtain ⟨hitem, hid⟩ := Roster.id_of_wanted h.faithful hspot.group hspot.wanted
  have hperm := (IsOrderly.group_perm hspot.group).map (·.holder.zone)
  rw [List.map_map, ← hid] at hperm
  exact (h.spread item hitem).perm hperm

/-- No replica leaves its zone: it has the zone for itself, or there is no other one to go to. -/
theorem zoneMove?_eq_none (h : s.IsFilling) (hspot : Spot s g item room) :
    Spot.zoneMove? s g item room = none := by
  refine Option.eq_none_iff_forall_ne_some.2 fun r hmove => ?_
  obtain ⟨hr, -, ⟨q, hq, hne, hzone⟩, m, hm, hreach⟩ := hspot.of_zoneMove? hmove
  rw [h.serving_eq hspot.group] at hr hq
  rcases h.isSpread_replicas hspot with hnodup | hall
  · exact hne (List.inj_on_of_nodup_map hnodup hq hr hzone)
  · obtain ⟨e, he, -, rfl⟩ := mem_openMembers_iff.1 hm
    obtain ⟨p, hp, hpz⟩ := List.mem_map.1 (hall e he)
    exact hreach (mem_reach_iff.2 ⟨p, (h.serving_eq hspot.group).symm ▸ hp, hpz⟩)

theorem staying_eq (h : s.IsFilling) (hspot : Spot s g item room) :
    (placement s g item room).staying = g.replicas := by
  rw [hspot.staying_of_zoneMove?_eq_none (h.zoneMove?_eq_none hspot), h.serving_eq hspot.group]

/-- Nothing is deleted. -/
theorem deleted_eq_nil (h : s.IsFilling) (hspot : Spot s g item room) (v : Viewpoint) (repairs : Nat) :
    v.deleted repairs item (placement s g item room) = [] := by
  rw [hspot.deleted_eq_released, List.eq_nil_iff_forall_not_mem]
  intro r hr
  obtain ⟨hown, hleaving | hexcess, -⟩ := Viewpoint.mem_released_iff.1 hr
  · have hmem : r ∈ g.replicas := hspot.live_eq ▸ (Viewpoint.of_own?_eq_some hown).1
    rcases hspot.mem_leaving hleaving with hdraining | hmove
    · obtain ⟨e, he, hid⟩ := h.exists_member hspot.group hmem
      exact hdraining (hid ▸ h.mem_openMembers he)
    · rw [h.zoneMove?_eq_none hspot] at hmove
      exact nomatch hmove
  · have hmore := (hspot.of_mem_excess hexcess).1
    rw [h.serving_eq hspot.group] at hmore
    exact Nat.not_lt.2 (h.length_replicas_le_wanted hspot) hmore

theorem churn_work_eq_zero (h : s.IsFilling) (hspot : Spot s g item room) (v : Viewpoint) (repairs : Nat) :
    (v.work repairs (.placed item g.replicas (placement s g item room))).tally.churn = 0 := by
  have hdeleted := h.deleted_eq_nil hspot v repairs
  have hmoving := hspot.moving_eq_nil hdeleted
  obtain ⟨hreleased, hrepaired⟩ := List.append_eq_nil_iff.1 hdeleted
  show (v.placedWork repairs item g.replicas (placement s g item room)).tally.churn = 0
  rw [Viewpoint.tally_placedWork]
  simp only [Viewpoint.counts, Tally.churn, hreleased, hrepaired, hmoving, List.length_nil]

/-! ### After a share -/

/-- The holders afterwards are those before, and the member itself if it claims a replica. -/
theorem zones_outcome (h : s.IsFilling) (hspot : Spot s g item room) (v : Viewpoint) (repairs : Nat) :
    (v.placedOutcome repairs item g.replicas (placement s g item room)).map (·.zone) =
      if v.claims repairs item g.replicas (placement s g item room) then
        v.self.zone :: g.replicas.map (·.zone)
      else g.replicas.map (·.zone) := by
  have hholders := congrArg (List.map MemberId.zone)
    (Viewpoint.map_holder_placedOutcome v repairs item g.replicas (placement s g item room))
  rw [Viewpoint.spared_of_deleted_eq_nil (h.deleted_eq_nil hspot v repairs), List.map_append,
    List.map_map, List.map_map] at hholders
  refine hholders.trans ?_
  split <;> rfl

theorem length_outcome_le (h : s.IsFilling) (hspot : Spot s g item room) (v : Viewpoint) (repairs : Nat) :
    (v.placedOutcome repairs item g.replicas (placement s g item room)).length ≤
      item.value.replication := by
  rw [← List.length_map (f := fun r : Replica => r.zone), h.zones_outcome hspot]
  split
  next hclaims =>
    have hneed := (hspot.of_claims hclaims).2.2.1
    rw [h.staying_eq hspot] at hneed
    rw [List.length_cons, List.length_map]
    exact hneed
  next =>
    rw [List.length_map]
    exact h.length_replicas_le_wanted hspot

/-- Whoever claims a replica is in a new zone, or there is no new zone. -/
theorem isSpread_outcome (h : s.IsFilling) (hspot : Spot s g item room) (v : Viewpoint) (repairs : Nat) :
    s.IsSpread ((v.placedOutcome repairs item g.replicas (placement s g item room)).map (·.zone)) := by
  rw [h.zones_outcome hspot]
  split
  next hclaims =>
    obtain ⟨-, -, -, hleast⟩ := hspot.of_claims hclaims
    rw [h.staying_eq hspot] at hleast
    refine (h.isSpread_replicas hspot).cons fun hmem e he => Decidable.byContradiction fun hzone => ?_
    have hout : e.value.id ∉ Room.holdersOf g.replicas := by
      intro hholds
      obtain ⟨r, hr, hid⟩ := Room.exists_of_mem_holdersOf hholds
      exact hzone (List.mem_map.2 ⟨r, hr, congrArg MemberId.zone hid⟩)
    have hle := hleast _ (h.mem_openMembers he) hout
    rw [List.count_eq_zero.2 hzone, Nat.le_zero] at hle
    exact List.count_eq_zero.1 hle hmem
  next => exact h.isSpread_replicas hspot

/-! ### Proposals -/

variable {m : MemberId} {b : Bounds} {p : Proposal} {entry : Entry Member} {ts : List (Nat × Planned)}

theorem exists_spot (h : s.IsFilling) {t : Planned} (ht : t ∈ (Roster.ofSnapshot s).planned b) :
    ∃ g item room, Spot s g item room ∧ t = .placed item g.replicas (placement s g item room) := by
  obtain ⟨g, hg, item, room, hw, hserves, rfl⟩ := h.serves_of_mem_planned h.ample ht
  exact ⟨g, item, room, ⟨h.toIsOrderly, h.ample, hg, hw, hserves⟩, rfl⟩

/-- Proposals only add and flag. -/
theorem churn_eq_zero (h : s.IsFilling) (hm : Proposal.Made s m b p entry ts) : p.tally.churn = 0 := by
  rw [hm.tally, Tally.churn_sum, List.sum_eq_zero_iff_forall_eq_nat]
  simp only [List.map_map, List.forall_mem_map, Function.comp_apply]
  intro t ht
  obtain ⟨g, item, room, hspot, he⟩ := h.exists_spot (hm.mem_planned ht)
  rw [he]
  exact h.churn_work_eq_zero hspot _ _

/-- Where items come to show replicas that are as many as are wanted at most, and spread over the zones, the
snapshot stays filling. -/
theorem of_shift {c c' : Contents} {shown : List (String × List Replica)} {s' : Snapshot}
    (h : s.IsFilling) (hshift : Shift c c' shown s s') (horderly : s'.IsOrderly)
    (hshown : ∀ t ∈ shown, ∀ i ∈ s.items, i.value.id = t.1 →
      t.2.length ≤ i.value.replication ∧ s.IsSpread (t.2.map (·.zone))) : s'.IsFilling := by
  have hheld : ∀ i ∈ s.items, (s'.held i.value.id).length ≤ i.value.replication ∧
      s.IsSpread ((s'.held i.value.id).map (·.holder.zone)) := by
    intro i hi
    by_cases htask : ∃ t ∈ shown, t.1 = i.value.id
    · obtain ⟨t, ht, hid⟩ := htask
      obtain ⟨hlength, hspread⟩ := hshown t ht i hi hid.symm
      have hperm := hshift.held_of_mem ht
      rw [hid] at hperm
      refine ⟨?_, hspread.perm ?_⟩
      · rw [hperm.length_eq, List.length_map]
        exact hlength
      · refine (hperm.map _).trans (List.Perm.of_eq ?_)
        rw [List.map_map]
        rfl
    · have hperm := hshift.held_of_not_mem (List.mem_map_of_mem hi) fun t ht he => htask ⟨t, ht, he⟩
      exact ⟨hperm.length_eq ▸ h.within i hi, (h.spread i hi).perm (hperm.map _)⟩
  refine ⟨horderly, ?_, hshift.isAmple h.ample, ?_, ?_, ?_⟩
  · exact hshift.members_eq ▸ h.undrained
  · exact hshift.items_eq ▸ h.slots
  · exact hshift.items_eq ▸ fun i hi => (hheld i hi).1
  · unfold IsSpread
    rw [hshift.members_eq, hshift.items_eq]
    exact fun i hi => (hheld i hi).2

/-- A proposal for a filling snapshot leaves the contents filling, if they were, although they may have
changed since. -/
theorem exists_after {q : Snapshot} (hq : q.IsFilling) (hs : s.IsFilling)
    (hmembers : q.members = s.members) (hitems : q.items = s.items)
    (hm : Proposal.Made q m b p entry ts) {c c' : Contents} (hbefore : s.Mirrors c)
    (heffect : Effect s.layout (Proposal.viewpoint q m) ts c c') (revision : Int) :
    ∃ s', ofEntries s.layout revision (c'.entriesUnder s.layout.scope) = .ok s' ∧
      s'.members = s.members ∧ s'.items = s.items ∧ s'.IsFilling := by
  have hspot := fun t ht => hq.exists_spot (hm.mem_planned (t := t) ht)
  have hlanding : Landing q (Proposal.viewpoint q m) ts c c' s := by
    refine ⟨hbefore, heffect, hspot, hmembers, hitems, fun t ht => ?_⟩
    obtain ⟨g, item, room, hspot, he⟩ := hspot t ht
    have hitem := (Roster.id_of_wanted hq.faithful hspot.group hspot.wanted).1
    rw [he]
    exact Nat.le_trans (hq.length_outcome_le hspot _ _) (hq.slots item hitem)
  obtain ⟨s', hs', hshift⟩ := hlanding.exists_shift revision
  refine ⟨s', hs', hshift.members_eq, hshift.items_eq,
    hs.of_shift hshift (hlanding.orderly hs.toIsOrderly hshift) ?_⟩
  refine List.forall_mem_map.2 fun t ht i hi hid => ?_
  obtain ⟨g, item, room, hspot, he⟩ := hspot t ht
  have hitem := (Roster.id_of_wanted hq.faithful hspot.group hspot.wanted).1
  simp only [he] at hid ⊢
  obtain rfl : i = item := eq_of_mem_items hs.faithful hi (hitems ▸ hitem) hid
  refine ⟨hq.length_outcome_le hspot _ _, ?_⟩
  have hspread := hq.isSpread_outcome hspot (Proposal.viewpoint q m) t.1
  unfold IsSpread at hspread ⊢
  rwa [hmembers] at hspread

end IsFilling

end Snapshot

end Allotment
